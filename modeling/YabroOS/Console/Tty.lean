import YabroOS.Lib.Checked
import Mathlib.Logic.Function.Basic
import Mathlib.Tactic.Ring
import Mathlib.Order.Basic
import Mathlib.Tactic.Common

namespace YabroOS.Console

open Lib Function

def cellW : ℕ := 8
def cellH : ℕ := 16
def glyphBytes : ℕ := 16

/-- The fields of `LimineFramebuffer` that the console reads. `C_CONSOLE_FB` and `C_CONSOLE_FB_VIEW`
are the same framebuffer from boot on. -/
structure Framebuffer where
  address : ℕ
  width : ℕ
  height : ℕ
  pitch : ℕ

abbrev Font := Vector UInt8 1536

abbrev Pixels := ℕ → UInt32

namespace Framebuffer

def pitchPixels (fb : Framebuffer) : ℕ := fb.pitch / 4
def maxCols (fb : Framebuffer) : ℕ := fb.width / cellW
def maxRows (fb : Framebuffer) : ℕ := fb.height / cellH

/-- The offset, in pixels from the start of the framebuffer, is of the `height × width` area:
neither below it nor in the padding of a line. -/
def Inside (fb : Framebuffer) (offset : ℕ) : Prop :=
  offset / fb.pitchPixels < fb.height ∧ offset % fb.pitchPixels < fb.width

instance (fb : Framebuffer) (offset : ℕ) : Decidable (fb.Inside offset) :=
  inferInstanceAs (Decidable (_ ∧ _))

/-- A read or a write outside the area is a failure here, as is an index or a subtraction that the
source would get wrong. -/
def readPixel (fb : Framebuffer) (offset : ℕ) (px : Pixels) : Option UInt32 :=
  if fb.Inside offset then some (px offset) else none

def writePixel (fb : Framebuffer) (offset : ℕ) (color : UInt32) (px : Pixels) : Option Pixels :=
  if fb.Inside offset then some (update px offset color) else none

def movePixel (fb : Framebuffer) (src dst : ℕ) (px : Pixels) : Option Pixels := do
  let pixel ← fb.readPixel src px
  fb.writePixel dst pixel px

variable (font : Font) (fb : Framebuffer)

def drawChar (ch : UInt8) (col row : ℕ) : Pixels → Option Pixels :=
  let startX := col * cellW
  let startY := row * cellH
  let fontIdx := if 32 ≤ ch ∧ ch ≤ 127 then (ch - 32).toNat * glyphBytes else 0
  forRange 0 cellH fun dy px ↦ do
    let fontRow ← font[fontIdx + dy]?
    forRange 0 cellW (fun dx px ↦ do
      let bit ← sub? 7 dx
      let color := if fontRow.toNat.testBit bit then 0x00FFFFFF else 0x00000000
      let py := startY + dy
      let x := startX + dx
      fb.writePixel (py * fb.pitchPixels + x) color px) px

def ttyClearCells (cols row first last : ℕ) (px : Pixels) : Option Pixels :=
  if fb.height / cellH ≤ row then some px
  else
    let stop := min last cols
    forRange first stop (fun col ↦ drawChar font fb 32 col row) px

def ttyClearScreen (cols rows : ℕ) : Pixels → Option Pixels :=
  forRange 0 rows fun row ↦ ttyClearCells font fb cols row 0 cols

def ttyShiftRow (cols row col count : ℕ) (insert : Bool) (px : Pixels) : Option Pixels :=
  if fb.height / cellH ≤ row ∨ cols ≤ col ∨ count = 0 then some px
  else do
    let room ← sub? cols col
    let shift := min count room * cellW
    let left := col * cellW
    let right := cols * cellW
    if shift = 0 ∨ right ≤ left then some px
    else do
      let pitch := fb.pitchPixels
      let px ← forRange 0 cellH (fun dy px ↦ do
        let y := row * cellH + dy
        let stop ← sub? right shift
        if insert then
          forRangeRev left stop (fun x ↦ fb.movePixel (y * pitch + x) (y * pitch + x + shift)) px
        else
          forRange left stop (fun x ↦ fb.movePixel (y * pitch + x + shift) (y * pitch + x)) px) px
      if insert then ttyClearCells font fb cols row col (min (col + count) cols) px
      else do
        let first ← sub? cols (shift / cellW)
        ttyClearCells font fb cols row first cols px

def ttyShiftLines (cols rows row count : ℕ) (insert : Bool) (px : Pixels) : Option Pixels :=
  if rows ≤ row ∨ count = 0 then some px
  else do
    let room ← sub? rows row
    let amount := min count room
    let shift := amount * cellH
    let startY := row * cellH
    let endY := rows * cellH
    let width := cols * cellW
    let pitch := fb.pitchPixels
    let stop ← sub? endY shift
    if insert then
      let px ← forRangeRev startY stop (fun y ↦
        forRange 0 width fun x ↦ fb.movePixel (y * pitch + x) ((y + shift) * pitch + x)) px
      forRange row (row + amount) (fun r ↦ ttyClearCells font fb cols r 0 cols) px
    else
      let px ← forRange startY stop (fun y ↦
        forRange 0 width fun x ↦ fb.movePixel ((y + shift) * pitch + x) (y * pitch + x)) px
      let first ← sub? rows amount
      forRange first rows (fun r ↦ ttyClearCells font fb cols r 0 cols) px

def clearFramebuffer : Pixels → Option Pixels :=
  forRange 0 fb.height fun y ↦ forRange 0 fb.width fun x ↦
    fb.writePixel (y * fb.pitchPixels + x) 0x00000000

def scrollScreen (maxCols maxRows : ℕ) (px : Pixels) : Option Pixels := do
  let lineHeight := cellH
  let lineWidth := maxCols * cellW
  let px ← forRange 1 maxRows (fun row px ↦ do
    let srcY := row * lineHeight
    let above ← sub? row 1
    let dstY := above * lineHeight
    forRange 0 lineHeight (fun y ↦
      let srcOffset := (srcY + y) * fb.pitchPixels
      let dstOffset := (dstY + y) * fb.pitchPixels
      forRange 0 lineWidth fun x ↦ fb.movePixel (srcOffset + x) (dstOffset + x)) px) px
  let last ← sub? maxRows 1
  let lastY := last * lineHeight
  forRange 0 lineHeight (fun y ↦
    let offset := (lastY + y) * fb.pitchPixels
    forRange 0 lineWidth fun x ↦ fb.writePixel (offset + x) 0) px

section Bounds

variable {font : Font} {fb : Framebuffer} {x y col row cols rows : ℕ}

theorem lt_width (hx : x < fb.maxCols * cellW) : x < fb.width :=
  hx.trans_le (Nat.div_mul_le_self _ _)

theorem lt_height (hy : y < fb.maxRows * cellH) : y < fb.height :=
  hy.trans_le (Nat.div_mul_le_self _ _)

theorem cell_lt {i n size d : ℕ} (hi : i < n) (hd : d < size) : i * size + d < n * size := by
  calc i * size + d < i * size + size := by omega
    _ = (i + 1) * size := by ring
    _ ≤ n * size := Nat.mul_le_mul_right _ hi

theorem writePixel_unfailing {offset : ℕ} {color : UInt32} (h : fb.Inside offset) :
    Unfailing (fb.writePixel offset color) := by
  intro px
  rw [writePixel, if_pos h]
  exact .ret trivial

theorem movePixel_unfailing {src dst : ℕ} (hs : fb.Inside src) (hd : fb.Inside dst) :
    Unfailing (fb.movePixel src dst) := by
  intro px
  rw [movePixel, readPixel, if_pos hs]
  exact writePixel_unfailing hd px

variable (hp : 4 * fb.width ≤ fb.pitch)
include hp

theorem inside (hx : x < fb.width) (hy : y < fb.height) : fb.Inside (y * fb.pitchPixels + x) := by
  have hw : x < fb.pitchPixels := by
    rw [pitchPixels]
    omega
  have hpos : 0 < fb.pitchPixels := by omega
  constructor
  · rw [Nat.add_comm, Nat.add_mul_div_right _ _ hpos, Nat.div_eq_of_lt hw]
    omega
  · rwa [Nat.add_comm, Nat.add_mul_mod_self_right, Nat.mod_eq_of_lt hw]

theorem drawChar_unfailing (ch : UInt8) (hcol : col < fb.maxCols) (hrow : row < fb.maxRows) :
    Unfailing (drawChar font fb ch col row) := by
  unfold drawChar
  refine .forRange fun dy _ hdy px ↦ ?_
  have hidx : (if 32 ≤ ch ∧ ch ≤ 127 then (ch - 32).toNat * glyphBytes else 0) + dy < 1536 := by
    simp only [glyphBytes, cellH] at hdy ⊢
    split
    · rename_i h
      have h₁ := UInt8.le_iff_toNat_le.1 h.1
      have h₂ := UInt8.le_iff_toNat_le.1 h.2
      rw [UInt8.toNat_sub_of_le _ _ h.1]
      simp only [UInt8.reduceToNat] at h₁ h₂ ⊢
      omega
    · omega
  rw [Vector.getElem?_eq_getElem hidx]
  -- the glyph row is in the font, so what is left is the row of pixels
  refine Unfailing.forRange (fun dx _ hdx px ↦ ?_) px
  rw [sub?_of_le (show dx ≤ 7 by simp only [cellW] at hdx; omega)]
  have hx := lt_width (cell_lt hcol hdx)
  have hy := lt_height (cell_lt hrow hdy)
  exact writePixel_unfailing (inside hp hx hy) px

theorem ttyClearCells_unfailing (first last : ℕ) :
    Unfailing (ttyClearCells font fb fb.maxCols row first last) := by
  intro px
  rw [ttyClearCells]
  split
  · exact .ret trivial
  · rename_i hrow
    refine Unfailing.forRange (fun col _ hcol ↦ ?_) px
    exact drawChar_unfailing hp 32 (by omega) (by rw [maxRows]; omega)

theorem ttyClearScreen_unfailing : Unfailing (ttyClearScreen font fb fb.maxCols rows) :=
  .forRange fun _ _ _ ↦ ttyClearCells_unfailing hp _ _

theorem ttyShiftRow_unfailing (count : ℕ) (insert : Bool) :
    Unfailing (ttyShiftRow font fb fb.maxCols row col count insert) := by
  intro px
  rw [ttyShiftRow]
  split
  · exact .ret trivial
  rename_i h
  obtain ⟨hrow, hcol, -⟩ : row < fb.maxRows ∧ col < fb.maxCols ∧ count ≠ 0 := by
    rw [maxRows]
    omega
  simp only [sub?_of_le hcol.le, Option.bind_eq_bind, Option.bind_some]
  set shift := min count (fb.maxCols - col) * cellW with hshift
  have hle : col * cellW + shift ≤ fb.maxCols * cellW := by
    rw [hshift, ← Nat.add_mul]
    exact Nat.mul_le_mul_right _ (by omega)
  split
  · exact .ret trivial
  refine Yields.bind (Unfailing.forRange (fun dy _ hdy px ↦ ?_) px) fun px _ ↦ ?_
  · rw [sub?_of_le (show shift ≤ fb.maxCols * cellW by omega)]
    have hy := lt_height (cell_lt hrow hdy)
    have hin : ∀ x, x < fb.maxCols * cellW - shift →
        fb.Inside ((row * cellH + dy) * fb.pitchPixels + x) ∧
        fb.Inside ((row * cellH + dy) * fb.pitchPixels + x + shift) := by
      intro x hx
      refine ⟨inside hp (lt_width (by omega)) hy, ?_⟩
      rw [Nat.add_assoc]
      exact inside hp (lt_width (by omega)) hy
    cases insert with
    | true =>
      exact Unfailing.forRangeRev (fun x _ hx ↦ movePixel_unfailing (hin x hx).1 (hin x hx).2) px
    | false =>
      exact Unfailing.forRange (fun x _ hx ↦ movePixel_unfailing (hin x hx).2 (hin x hx).1) px
  · cases insert with
    | true => exact ttyClearCells_unfailing hp _ _ px
    | false =>
      have hcells : shift / cellW ≤ fb.maxCols := by
        rw [hshift, Nat.mul_div_cancel _ (by decide)]
        omega
      rw [sub?_of_le hcells]
      exact ttyClearCells_unfailing hp _ _ px

theorem ttyShiftLines_unfailing (count : ℕ) (insert : Bool) :
    Unfailing (ttyShiftLines font fb fb.maxCols fb.maxRows row count insert) := by
  intro px
  rw [ttyShiftLines]
  split
  · exact .ret trivial
  rename_i h
  have hrow : row < fb.maxRows := by omega
  set amount := min count (fb.maxRows - row) with hamount
  have hshift : amount * cellH ≤ fb.maxRows * cellH := Nat.mul_le_mul_right _ (by omega)
  simp only [sub?_of_le hrow.le, ← hamount, sub?_of_le hshift, Option.bind_eq_bind, Option.bind_some]
  have hin : ∀ x y, x < fb.maxCols * cellW → y < fb.maxRows * cellH - amount * cellH →
      fb.Inside (y * fb.pitchPixels + x) ∧ fb.Inside ((y + amount * cellH) * fb.pitchPixels + x) := by
    intro x y hx hy
    exact ⟨inside hp (lt_width hx) (lt_height (by omega)),
      inside hp (lt_width hx) (lt_height (by omega))⟩
  split
  · refine Yields.bind (Unfailing.forRangeRev (fun y _ hy ↦ ?_) px) fun px _ ↦ ?_
    · exact .forRange fun x _ hx ↦ movePixel_unfailing (hin x y hx hy).1 (hin x y hx hy).2
    · exact Unfailing.forRange (fun r _ _ ↦ ttyClearCells_unfailing hp _ _) px
  · refine Yields.bind (Unfailing.forRange (fun y _ hy ↦ ?_) px) fun px _ ↦ ?_
    · exact .forRange fun x _ hx ↦ movePixel_unfailing (hin x y hx hy).2 (hin x y hx hy).1
    · rw [sub?_of_le (show amount ≤ fb.maxRows by omega)]
      exact Unfailing.forRange (fun r _ _ ↦ ttyClearCells_unfailing hp _ _) px

theorem clearFramebuffer_unfailing : Unfailing (clearFramebuffer fb) :=
  .forRange fun _ _ hy ↦ .forRange fun _ _ hx ↦ writePixel_unfailing (inside hp hx hy)

theorem scrollScreen_unfailing (hrows : 0 < fb.maxRows) :
    Unfailing (scrollScreen fb fb.maxCols fb.maxRows) := by
  intro px
  rw [scrollScreen]
  refine Yields.bind (Unfailing.forRange (fun row h₁ hrow px ↦ ?_) px) fun px _ ↦ ?_
  · rw [sub?_of_le h₁]
    refine Unfailing.forRange (fun y _ hy ↦ .forRange fun x _ hx ↦ ?_) px
    exact movePixel_unfailing (inside hp (lt_width hx) (lt_height (cell_lt hrow hy)))
      (inside hp (lt_width hx) (lt_height (cell_lt (by omega) hy)))
  · rw [sub?_of_le (show 1 ≤ fb.maxRows from hrows)]
    refine Unfailing.forRange (fun y _ hy ↦ .forRange fun x _ hx ↦ ?_) px
    exact writePixel_unfailing (inside hp (lt_width hx) (lt_height (cell_lt (by omega) hy)))

end Bounds

end Framebuffer

end YabroOS.Console

namespace YabroOS.Console

open Lib

inductive AnsiState
  | ground
  | escape
  | csi
  | charset
  | string
  | stringEscape
  deriving DecidableEq

/-- The statics of the console with the pixels of the framebuffer. -/
structure Tty where
  consoleCol : ℕ
  consoleRow : ℕ
  cursorPhase : Bool
  cursorVisible : Bool
  cursorEnabled : Bool
  cursorSavedCol : ℕ
  cursorSavedRow : ℕ
  cursorSavedPixels : Vector UInt32 8
  ansiState : AnsiState
  ansiParams : Vector ℕ 8
  ansiParamCount : ℕ
  ansiPrivate : Bool
  savedCol : ℕ
  savedRow : ℕ
  pixels : Pixels

def satAdd (a b : ℕ) : ℕ := min (a + b) (2 ^ 64 - 1)
def satMul (a b : ℕ) : ℕ := min (a * b) (2 ^ 64 - 1)

namespace Tty

def init (pixels : Pixels) : Tty where
  consoleCol := 0
  consoleRow := 0
  cursorPhase := false
  cursorVisible := false
  cursorEnabled := true
  cursorSavedCol := 0
  cursorSavedRow := 0
  cursorSavedPixels := Vector.replicate 8 0
  ansiState := .ground
  ansiParams := Vector.replicate 8 0
  ansiParamCount := 0
  ansiPrivate := false
  savedCol := 0
  savedRow := 0
  pixels := pixels

def paint (f : Pixels → Option Pixels) (t : Tty) : Option Tty := do
  let px ← f t.pixels
  some { t with pixels := px }

variable (font : Font) (fb : Framebuffer)

def ttyCursorRestore (t : Tty) : Option Tty :=
  if !t.cursorVisible then some t
  else
    let x0 := t.cursorSavedCol * cellW
    let y0 := t.cursorSavedRow * cellH + (cellH - 1)
    if fb.width < x0 + cellW ∨ fb.height < y0 + 1 then some { t with cursorVisible := false }
    else do
      let px ← forRange 0 1 (fun y ↦ forRange 0 cellW fun x px ↦ do
        let pixel ← t.cursorSavedPixels[y * cellW + x]?
        fb.writePixel ((y0 + y) * fb.pitchPixels + (x0 + x)) pixel px) t.pixels
      some { t with pixels := px, cursorVisible := false }

def ttyCursorDraw (t : Tty) : Option Tty :=
  if !t.cursorEnabled then some t
  else
    let cols := fb.width / cellW
    let rows := fb.height / cellH
    if cols = 0 ∨ rows = 0 then some t
    else do
      let col := min t.consoleCol (← sub? cols 1)
      let row := min t.consoleRow (← sub? rows 1)
      let x0 := col * cellW
      let y0 := row * cellH + (cellH - 1)
      if fb.width < x0 + cellW ∨ fb.height < y0 + 1 then some t
      else do
        let (px, saved) ← forRange 0 1 (fun y ↦ forRange 0 cellW fun x (px, saved) ↦ do
          let off := (y0 + y) * fb.pitchPixels + (x0 + x)
          let pixel ← fb.readPixel off px
          let saved ← if h : y * cellW + x < 8 then some (saved.set (y * cellW + x) pixel) else none
          let px ← fb.writePixel off 0x00FFFFFF px
          some (px, saved)) (t.pixels, t.cursorSavedPixels)
        some { t with
          pixels := px, cursorSavedPixels := saved
          cursorSavedCol := col, cursorSavedRow := row, cursorVisible := true }

def consoleFbCursorSuspend (t : Tty) : Option Tty := do
  let t ← ttyCursorRestore fb t
  some { t with cursorVisible := false, cursorPhase := false }

def consoleFbCursorBlinkTick (t : Tty) : Option Tty :=
  if !t.cursorEnabled then do
    let t ← ttyCursorRestore fb t
    some { t with cursorPhase := false }
  else
    let t := { t with cursorPhase := !t.cursorPhase }
    if t.cursorPhase then
      if !t.cursorVisible then ttyCursorDraw fb t else some t
    else ttyCursorRestore fb t

def ttyParam (t : Tty) (index default : ℕ) : Option ℕ :=
  if t.ansiParamCount ≤ index then some default
  else do
    let value ← t.ansiParams[index]?
    some (if value = 0 then default else value)

def setMode (cols rows : ℕ) (enable : Bool) (i : ℕ) (t : Tty) : Option Tty := do
  let param ← t.ansiParams[i]?
  if param = 25 then
    let t := { t with cursorEnabled := enable }
    if !enable then do
      let t ← ttyCursorRestore fb t
      some { t with cursorPhase := false }
    else some t
  else if param = 1049 ∨ param = 47 then do
    let t ← paint (Framebuffer.ttyClearScreen font fb cols rows) t
    let t := { t with consoleCol := 0, consoleRow := 0 }
    if !enable then some { t with cursorEnabled := true, cursorPhase := true } else some t
  else some t

def ttyCsiExecute (cols rows : ℕ) (finalByte : UInt8) (t : Tty) : Option Tty := do
  let n ← ttyParam t 0 1
  let clearCells (row first last : ℕ) := Framebuffer.ttyClearCells font fb cols row first last
  let lastCol := cols - 1
  let lastRow := rows - 1
  match Char.ofNat finalByte.toNat with
  | 'A' => some { t with consoleRow := t.consoleRow - n }
  | 'B' => some { t with consoleRow := min (satAdd t.consoleRow n) lastRow }
  | 'C' => some { t with consoleCol := min (satAdd t.consoleCol n) lastCol }
  | 'D' => some { t with consoleCol := t.consoleCol - n }
  | 'E' => some { t with consoleRow := min (satAdd t.consoleRow n) lastRow, consoleCol := 0 }
  | 'F' => some { t with consoleRow := t.consoleRow - n, consoleCol := 0 }
  | 'G' => some { t with consoleCol := min (n - 1) lastCol }
  | 'd' => some { t with consoleRow := min (n - 1) lastRow }
  | 'H' | 'f' => do
    let m ← ttyParam t 1 1
    some { t with consoleRow := min (n - 1) lastRow, consoleCol := min (m - 1) lastCol }
  | 'J' =>
    match t.ansiParams[0] with
    | 0 => do
      let t ← paint (clearCells t.consoleRow t.consoleCol cols) t
      paint (forRange (t.consoleRow + 1) rows fun row ↦ clearCells row 0 cols) t
    | 1 => do
      let t ← paint (forRange 0 t.consoleRow fun row ↦ clearCells row 0 cols) t
      paint (clearCells t.consoleRow 0 (min (t.consoleCol + 1) cols)) t
    | 2 | 3 => paint (Framebuffer.ttyClearScreen font fb cols rows) t
    | _ => some t
  | 'K' =>
    match t.ansiParams[0] with
    | 0 => paint (clearCells t.consoleRow t.consoleCol cols) t
    | 1 => paint (clearCells t.consoleRow 0 (min (t.consoleCol + 1) cols)) t
    | 2 => paint (clearCells t.consoleRow 0 cols) t
    | _ => some t
  | 'X' => paint (clearCells t.consoleRow t.consoleCol (min (satAdd t.consoleCol n) cols)) t
  | '@' => paint (Framebuffer.ttyShiftRow font fb cols t.consoleRow t.consoleCol n true) t
  | 'P' => paint (Framebuffer.ttyShiftRow font fb cols t.consoleRow t.consoleCol n false) t
  | 'L' => paint (Framebuffer.ttyShiftLines font fb cols rows t.consoleRow n true) t
  | 'M' => paint (Framebuffer.ttyShiftLines font fb cols rows t.consoleRow n false) t
  | 'S' => paint (Framebuffer.ttyShiftLines font fb cols rows 0 n false) t
  | 'T' => paint (Framebuffer.ttyShiftLines font fb cols rows 0 n true) t
  | 's' => some { t with savedCol := t.consoleCol, savedRow := t.consoleRow }
  | 'u' => some { t with consoleCol := min t.savedCol lastCol, consoleRow := min t.savedRow lastRow }
  | 'h' | 'l' =>
    if t.ansiPrivate then do
      let enable := finalByte = 104
      let t ← forRange 0 t.ansiParamCount (setMode font fb cols rows enable) t
      some (if enable then { t with cursorPhase := true } else t)
    else some t
  | _ => some t

def putcEscape (maxCols maxRows : ℕ) (ch : UInt8) (t : Tty) : Option Tty :=
  let t := { t with ansiState := .ground }
  match Char.ofNat ch.toNat with
  | '[' => some { t with
      ansiState := .csi, ansiParams := Vector.replicate 8 0, ansiParamCount :=
        1, ansiPrivate := false }
  | '(' | ')' | '*' | '+' | '-' | '.' | '/' | '#' | '%' => some { t with ansiState := .charset }
  | ']' | 'P' | 'X' | '^' | '_' => some { t with ansiState := .string }
  | '7' => some { t with savedCol := t.consoleCol, savedRow := t.consoleRow }
  | '8' => do
    let lastCol ← sub? maxCols 1
    let lastRow ← sub? maxRows 1
    some { t with consoleCol := min t.savedCol lastCol, consoleRow := min t.savedRow lastRow }
  | 'c' => do
    let t ← paint (Framebuffer.ttyClearScreen font fb maxCols maxRows) t
    some { t with consoleCol := 0, consoleRow := 0 }
  | 'D' => some { t with consoleRow := t.consoleRow + 1 }
  | 'M' => some { t with consoleRow := t.consoleRow - 1 }
  | '\\' => some t
  | _ => some (if 0x20 ≤ ch ∧ ch ≤ 0x2f then { t with ansiState := .charset } else t)

def putcCsi (maxCols maxRows : ℕ) (ch : UInt8) (t : Tty) : Option Tty :=
  if 0x30 ≤ ch ∧ ch ≤ 0x39 then
    let idx := min (t.ansiParamCount - 1) 7
    if h : idx < 8 then
      let param := min (satAdd (satMul t.ansiParams[idx] 10) (ch - 0x30).toNat) 65535
      some { t with ansiParams := t.ansiParams.set idx param }
    else none
  else if ch = 0x3b then
    some (if t.ansiParamCount < 8 then { t with ansiParamCount := t.ansiParamCount + 1 } else t)
  else if 0x3c ≤ ch ∧ ch ≤ 0x3f then some { t with ansiPrivate := true }
  else if 0x20 ≤ ch ∧ ch ≤ 0x2f then some t
  else if 0x40 ≤ ch ∧ ch ≤ 0x7e then do
    let t ← ttyCsiExecute font fb maxCols maxRows ch t
    some { t with ansiState := .ground }
  else if ch < 0x20 then some t
  else some { t with ansiState := .ground }

def putcGround (maxCols maxRows : ℕ) (ch : UInt8) (t : Tty) : Option Tty :=
  if ch = 0x1b then some { t with ansiState := .escape }
  else if ch = 13 then some { t with consoleCol := 0 }
  else if ch = 10 then some { t with consoleCol := 0, consoleRow := t.consoleRow + 1 }
  else if ch = 9 then do
    let lastCol ← sub? maxCols 1
    some { t with consoleCol := min ((t.consoleCol + 8) / 8 * 8) lastCol }
  else if ch = 8 ∨ ch = 127 then
    if 0 < t.consoleCol then
      let t := { t with consoleCol := t.consoleCol - 1 }
      paint (Framebuffer.drawChar font fb 32 t.consoleCol t.consoleRow) t
    else some t
  else if ch ≤ 31 then some t
  else do
    let t ← if t.consoleRow < maxRows ∧ t.consoleCol < maxCols then
        paint (Framebuffer.drawChar font fb ch t.consoleCol t.consoleRow) t
      else some t
    let t := { t with consoleCol := t.consoleCol + 1 }
    some (if maxCols ≤ t.consoleCol then { t with consoleCol := 0, consoleRow := t.consoleRow + 1 }
      else t)

def putcAnsi (maxCols maxRows : ℕ) (ch : UInt8) (t : Tty) : Option Tty :=
  match t.ansiState with
  | .escape => putcEscape font fb maxCols maxRows ch t
  | .csi => putcCsi font fb maxCols maxRows ch t
  | .charset => some { t with ansiState := .ground }
  | .string =>
    if ch = 0x07 then some { t with ansiState := .ground }
    else if ch = 0x1b then some { t with ansiState := .stringEscape }
    else some t
  | .stringEscape =>
    if ch = 0x5c then some { t with ansiState := .ground }
    else if ch ≠ 0x1b then some { t with ansiState := .string }
    else some t
  | .ground => putcGround font fb maxCols maxRows ch t

def putcScroll (maxCols maxRows : ℕ) (t : Tty) : Option Tty :=
  if maxRows ≤ t.consoleRow then do
    let t ← paint (Framebuffer.scrollScreen fb maxCols maxRows) t
    let lastRow ← sub? maxRows 1
    some { t with consoleRow := lastRow }
  else some t

def putcEnd (maxCols maxRows : ℕ) (t : Tty) : Option Tty := do
  let t ← putcScroll fb maxCols maxRows t
  let lastCol ← sub? maxCols 1
  let t := { t with consoleCol := min t.consoleCol lastCol, cursorPhase := true }
  if t.cursorEnabled then ttyCursorDraw fb t else some t

def consoleFbPutc (ch : UInt8) (t : Tty) : Option Tty := do
  let t ← ttyCursorRestore fb t
  if fb.address < 0x00010000 then some t
  else
    let maxCols := fb.width / cellW
    let maxRows := fb.height / cellH
    if maxCols = 0 ∨ maxRows = 0 then some t
    else do
      let t ← putcAnsi font fb maxCols maxRows ch t
      putcEnd fb maxCols maxRows t

def consoleFbCls (t : Tty) : Option Tty := do
  let t ← ttyCursorRestore fb t
  if fb.address = 0 ∨ fb.width = 0 ∨ fb.height = 0 then
    some { t with consoleCol := 0, consoleRow := 0 }
  else do
    let t ← paint (Framebuffer.clearFramebuffer fb) t
    ttyCursorDraw fb { t with consoleCol := 0, consoleRow := 0, cursorPhase := true }

end Tty

/-- What the kernel calls: bytes come from `sys_write`, ticks from the timer, and `suspend` from the
switch to graphics. -/
inductive Op
  | putc (ch : UInt8)
  | cls
  | blinkTick
  | suspend

def Tty.step (font : Font) (fb : Framebuffer) (t : Tty) : Op → Option Tty
  | .putc ch => t.consoleFbPutc font fb ch
  | .cls => t.consoleFbCls fb
  | .blinkTick => t.consoleFbCursorBlinkTick fb
  | .suspend => t.consoleFbCursorSuspend fb

def Tty.run (font : Font) (fb : Framebuffer) (ops : List Op) (t : Tty) : Option Tty :=
  ops.foldlM (Tty.step font fb) t

end YabroOS.Console
