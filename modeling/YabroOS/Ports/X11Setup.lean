import Mathlib.Algebra.Group.Nat.Defs
import Mathlib.Tactic.Common
import YabroOS.Lib.Checked

namespace YabroOS.Ports

open Lib

/-- `doom_x11_read_full` on what each `read` gives: at most what is asked for, nothing for its end
or an error. -/
def readFull : List (List UInt8) → ℕ → Option (List UInt8 × List (List UInt8))
  | [], size => if size = 0 then some ([], []) else none
  | got :: answers, size =>
    if size = 0 then some ([], got :: answers)
    else if got = [] then none
    else (readFull answers (size - (got.take size).length)).map fun (b, rest) ↦
      (got.take size ++ b, rest)

def xrd8 (b : List UInt8) (o : ℕ) : Option ℕ := b[o]?.map UInt8.toNat

def xrd16 (b : List UInt8) (o : ℕ) : Option ℕ := do
  let x ← xrd8 b o
  let y ← xrd8 b (o + 1)
  some (x + 2 ^ 8 * y)

def xrd32 (b : List UInt8) (o : ℕ) : Option ℕ := do
  let x ← xrd16 b o
  let y ← xrd16 b (o + 2)
  some (x + 2 ^ 16 * y)

def xpad4 (n : ℕ) : ℕ := (n + 3) / 4 * 4

def idBits (mask serial : BitVec 32) : List ℕ → BitVec 32 → BitVec 32 → BitVec 32
  | [], _, low => low
  | i :: is, src, low =>
    if mask &&& (1 <<< i) = 0 then idBits mask serial is src low
    else
      let low := if serial &&& src = 0 then low else low ||| (1 <<< i)
      if src <<< 1 = 0 then low else idBits mask serial is (src <<< 1) low

def makeId (base mask serial : BitVec 32) : BitVec 32 :=
  if mask = 0 ∨ base &&& mask ≠ 0 then 0
  else
    let low := idBits mask serial (List.range 32) 1 0
    if low = 0 then 0 else (base &&& ~~~mask) ||| low

def findFormat (b : List UInt8) (depth : ℕ) : ℕ → ℕ → Option (ℕ × ℕ)
  | 0, _ => some (0, 32)
  | n + 1, o => do
    let d ← xrd8 b o
    if d = depth then
      let bpp ← xrd8 b (o + 1)
      let pad ← xrd8 b (o + 2)
      some (bpp, if pad = 0 then 32 else pad)
    else findFormat b depth n (o + 8)

/-- The red, green and blue masks of a visual. -/
structure Masks where
  red : ℕ
  green : ℕ
  blue : ℕ
deriving DecidableEq

def findVisual (b : List UInt8) (root : ℕ) (ofDepth : Bool) :
    ℕ → ℕ → Option Masks → Option (Option Masks)
  | 0, _, masks => some masks
  | n + 1, vis, masks => do
    let id ← xrd32 b vis
    if id = root ∧ ofDepth then
      let red ← xrd32 b (vis + 8)
      let green ← xrd32 b (vis + 12)
      let blue ← xrd32 b (vis + 16)
      findVisual b root ofDepth n (vis + 24) (some ⟨red, green, blue⟩)
    else findVisual b root ofDepth n (vis + 24) masks

/-- The loop over the depths, that ends where one does not fit into the body. -/
def findMasks (b : List UInt8) (root depth : ℕ) : ℕ → ℕ → Option Masks → Option (Option Masks)
  | 0, _, masks => some masks
  | n + 1, voff, masks =>
    if b.length < voff + 8 then some masks
    else do
      let ddepth ← xrd8 b voff
      let nv ← xrd16 b (voff + 2)
      if b.length < voff + 8 + nv * 24 then some masks
      else
        let masks ← findVisual b root (ddepth = depth) nv (voff + 8) masks
        findMasks b root depth n (voff + 8 + nv * 24) masks

/-- What `doom_x11_open_window` leaves for the frames. -/
structure Window where
  width : ℕ
  height : ℕ
  maxRequest : ℕ
  depth : ℕ
  pad : ℕ
  imageOrder : ℕ
  rowBytes : ℕ
  masks : Masks
  id : BitVec 32
  gc : BitVec 32
deriving DecidableEq

def windowSize (screenW screenH : ℕ) : ℕ × ℕ :=
  let width := if 704 ≤ screenW ∧ 480 ≤ screenH then 640 else 320
  let height := if width = 640 then 400 else 200
  (if screenW < width then 320 else width, if screenH < height then 200 else height)

/-- `doom_x11_open_window` on the body of the reply: none where it reads outside of it, `some none`
where it refuses. The requests that it goes on with send more of these fields and change none of
what the frames use. -/
def parseBody (b : List UInt8) : Option (Option Window) := do
  let ridBase ← xrd32 b 4
  let ridMask ← xrd32 b 8
  let limit ← xrd16 b 18
  let nroots ← xrd8 b 20
  let nformats ← xrd8 b 21
  let imageOrder ← xrd8 b 22
  let vendorLen ← xrd16 b 16
  let fmtOff := 32 + xpad4 vendorLen
  if b.length < fmtOff + nformats * 8 then return none
  let screenOff := fmtOff + nformats * 8
  if nroots = 0 ∨ b.length < screenOff + 40 then return none
  -- the root, the black and the white pixel are for the requests that open the window
  let _ ← xrd32 b screenOff
  let _ ← xrd32 b (screenOff + 12)
  let _ ← xrd32 b (screenOff + 8)
  let rootVisual ← xrd32 b (screenOff + 32)
  let screenW ← xrd16 b (screenOff + 20)
  let screenH ← xrd16 b (screenOff + 22)
  let depth ← xrd8 b (screenOff + 38)
  let ndepths ← xrd8 b (screenOff + 39)
  let (bpp, pad) ← findFormat b depth nformats fmtOff
  if bpp ≠ 32 ∨ depth = 0 then return none
  let masks ← findMasks b rootVisual depth ndepths (screenOff + 40) none
  match masks with
  | none => return none
  | some masks =>
    if masks.red = 0 ∨ masks.green = 0 ∨ masks.blue = 0 then return none
    let (width, height) := windowSize screenW screenH
    let rowBytes := (width * bpp + pad - 1) / pad * (pad / 8)
    if rowBytes = 0 ∨ 640 * 4 < rowBytes then return none
    let id := makeId (BitVec.ofNat 32 ridBase) (BitVec.ofNat 32 ridMask) 1
    let gc := makeId (BitVec.ofNat 32 ridBase) (BitVec.ofNat 32 ridMask) 2
    if id = 0 ∨ gc = 0 ∨ id = gc then return none
    return some ⟨width, height, if limit = 0 then 65535 else limit, depth, pad, imageOrder,
      rowBytes, masks, id, gc⟩

def openWindow (answers : List (List UInt8)) : Option (Option Window) :=
  match readFull answers 8 with
  | none => some none
  | some (hdr, answers) => do
    let status ← xrd8 hdr 0
    let words ← xrd16 hdr 6
    if status ≠ 1 ∨ words * 4 < 72 ∨ 64 * 1024 < words * 4 then return none
    match readFull answers (words * 4) with
    | none => return none
    | some (b, _) => parseBody b

theorem yields_known {α : Type} {x : Option α} {P : α → Prop} (h : Yields x P) :
    Yields x fun a ↦ x = some a ∧ P a := by
  obtain ⟨a, ha, hP⟩ := h
  exact ⟨a, ha, ha, hP⟩

variable {b : List UInt8} {o n root depth : ℕ}

theorem xrd8_yields (h : o + 1 ≤ b.length) : Yields (xrd8 b o) (· < 2 ^ 8) := by
  rw [xrd8, List.getElem?_eq_getElem h]
  exact .ret (UInt8.toNat_lt _)

theorem xrd16_yields (h : o + 2 ≤ b.length) : Yields (xrd16 b o) (· < 2 ^ 16) := by
  refine (xrd8_yields (by omega)).bind fun x hx ↦ ?_
  refine (xrd8_yields (by omega)).bind fun y hy ↦ ?_
  exact .ret (by omega)

theorem xrd32_yields (h : o + 4 ≤ b.length) : Yields (xrd32 b o) (· < 2 ^ 32) := by
  refine (xrd16_yields (by omega)).bind fun x hx ↦ ?_
  refine (xrd16_yields (by omega)).bind fun y hy ↦ ?_
  exact .ret (by omega)

theorem findFormat_yields (h : o + n * 8 ≤ b.length) :
    Yields (findFormat b depth n o) fun r ↦ 0 < r.2 := by
  induction n generalizing o with
  | zero => exact .ret (by decide)
  | succ n ih =>
    refine (xrd8_yields (by omega)).bind fun d _ ↦ ?_
    split_ifs
    · refine (xrd8_yields (by omega)).bind fun bpp _ ↦ ?_
      refine (xrd8_yields (by omega)).bind fun pad _ ↦ .ret ?_
      dsimp only
      split_ifs <;> omega
    · exact ih (by omega)

def Masks.OfVisual (masks : Masks) (b : List UInt8) (visual : ℕ) : Prop :=
  ∃ o, xrd32 b o = some visual ∧ xrd32 b (o + 8) = some masks.red ∧
    xrd32 b (o + 12) = some masks.green ∧ xrd32 b (o + 16) = some masks.blue

/-- The root's visual, behind the vendor, the formats and the first of the screen's fields. -/
def rootVisual (b : List UInt8) : Option ℕ := do
  let vendorLen ← xrd16 b 16
  let nformats ← xrd8 b 21
  xrd32 b (32 + xpad4 vendorLen + nformats * 8 + 32)

def Received (answers : List (List UInt8)) (b : List UInt8) : Prop :=
  ∃ hdr answers' rest, readFull answers 8 = some (hdr, answers') ∧
    readFull answers' b.length = some (b, rest)

variable {masks : Option Masks} {ofDepth : Bool}

theorem findVisual_yields (h : o + n * 24 ≤ b.length) (hm : ∀ m ∈ masks, m.OfVisual b root) :
    Yields (findVisual b root ofDepth n o masks) fun r ↦ ∀ m ∈ r, m.OfVisual b root := by
  induction n generalizing o masks with
  | zero => exact .ret hm
  | succ n ih =>
    obtain ⟨id, hid, -⟩ := xrd32_yields (b := b) (o := o) (by omega)
    obtain ⟨red, hred, -⟩ := xrd32_yields (b := b) (o := o + 8) (by omega)
    obtain ⟨green, hgreen, -⟩ := xrd32_yields (b := b) (o := o + 12) (by omega)
    obtain ⟨blue, hblue, -⟩ := xrd32_yields (b := b) (o := o + 16) (by omega)
    simp only [findVisual, hid, hred, hgreen, hblue, Option.bind_eq_bind, Option.bind_some]
    split_ifs with hroot
    · refine ih (by omega) fun m hmem ↦ ?_
      obtain rfl := Option.mem_some.1 hmem
      exact ⟨o, hroot.1 ▸ hid, hred, hgreen, hblue⟩
    · exact ih (by omega) hm

theorem findMasks_yields (hm : ∀ m ∈ masks, m.OfVisual b root) :
    Yields (findMasks b root depth n o masks) fun r ↦ ∀ m ∈ r, m.OfVisual b root := by
  induction n generalizing o masks with
  | zero => exact .ret hm
  | succ n ih =>
    unfold findMasks
    split_ifs with hroom
    · exact .ret hm
    · refine (xrd8_yields (by omega)).bind fun d _ ↦ ?_
      refine (xrd16_yields (by omega)).bind fun nv _ ↦ ?_
      split_ifs with hroom'
      · exact .ret hm
      · refine (findVisual_yields (by omega) hm).bind fun masks' hm' ↦ ?_
        exact ih hm'

structure Window.Ready (win : Window) (b : List UInt8) : Prop where
  size : win.width = 640 ∧ win.height = 400 ∨ win.width = 320 ∧ win.height = 200
  limit : ∃ limit < 2 ^ 16, xrd16 b 18 = some limit ∧ win.maxRequest = if limit = 0 then 65535
    else limit
  stride : win.rowBytes = (win.width * 32 + win.pad - 1) / win.pad * (win.pad / 8)
  visual : ∃ visual, rootVisual b = some visual ∧ win.masks.OfVisual b visual

theorem windowSize_cases (w h : ℕ) : windowSize w h = (640, 400) ∨ windowSize w h = (320, 200) := by
  unfold windowSize
  by_cases hbig : 704 ≤ w ∧ 480 ≤ h
  · left
    simp only [if_pos hbig, if_true, if_neg (show ¬w < 640 by omega),
      if_neg (show ¬h < 400 by omega)]
  · right
    have hheight : (if (320 : ℕ) = 640 then 400 else 200) = 200 := rfl
    simp only [if_neg hbig, hheight, ite_self]

theorem refused_yields {P : Window → Prop} :
    Yields (some (none : Option Window)) fun r ↦ ∀ win ∈ r, P win :=
  .ret fun _ hmem ↦ absurd hmem (Option.not_mem_none _)

theorem parseBody_yields (h : 72 ≤ b.length) :
    Yields (parseBody b) fun r ↦ ∀ win ∈ r, win.Ready b := by
  unfold parseBody
  refine (xrd32_yields (by omega)).bind fun ridBase _ ↦ ?_
  refine (xrd32_yields (by omega)).bind fun ridMask _ ↦ ?_
  refine (yields_known (xrd16_yields (by omega))).bind fun limit hlimit ↦ ?_
  refine (xrd8_yields (by omega)).bind fun nroots _ ↦ ?_
  refine (yields_known (xrd8_yields (by omega))).bind fun nformats hnformats ↦ ?_
  refine (xrd8_yields (by omega)).bind fun imageOrder _ ↦ ?_
  refine (yields_known (xrd16_yields (by omega))).bind fun vendorLen hvendor ↦ ?_
  have hrootVisual : rootVisual b = xrd32 b (32 + xpad4 vendorLen + nformats * 8 + 32) := by
    rw [rootVisual, hvendor.1, hnformats.1]
    rfl
  dsimp only
  generalize 32 + xpad4 vendorLen = fmtOff at hrootVisual ⊢
  split
  · exact refused_yields
  split
  · exact refused_yields
  refine (xrd32_yields (by omega)).bind fun _ _ ↦ ?_
  refine (xrd32_yields (by omega)).bind fun _ _ ↦ ?_
  refine (xrd32_yields (by omega)).bind fun _ _ ↦ ?_
  refine (yields_known (xrd32_yields (by omega))).bind fun visual hroot ↦ ?_
  refine (xrd16_yields (by omega)).bind fun screenW _ ↦ ?_
  refine (xrd16_yields (by omega)).bind fun screenH _ ↦ ?_
  refine (xrd8_yields (by omega)).bind fun depth _ ↦ ?_
  refine (xrd8_yields (by omega)).bind fun ndepths _ ↦ ?_
  refine (findFormat_yields (by omega)).bind fun format _ ↦ ?_
  split
  · exact refused_yields
  rename_i hformat
  refine (findMasks_yields fun _ hmem ↦ absurd hmem (Option.not_mem_none _)).bind fun masks hmasks ↦
    ?_
  split
  · exact refused_yields
  rename_i masks
  split
  · exact refused_yields
  split
  · exact refused_yields
  split
  · exact refused_yields
  refine .ret fun win hwin ↦ ?_
  obtain rfl := Option.mem_some.1 hwin
  obtain ⟨hbpp, -⟩ := not_or.1 hformat
  refine ⟨?_, ?_, ?_, visual, hrootVisual.trans hroot.1, hmasks masks rfl⟩
  · dsimp only
    rcases windowSize_cases screenW screenH with hs | hs <;> rw [hs]
    · exact .inl ⟨rfl, rfl⟩
    · exact .inr ⟨rfl, rfl⟩
  · exact ⟨limit, hlimit.2, hlimit.1, rfl⟩
  · dsimp only
    rw [not_not.1 hbpp]

theorem readFull_length {answers rest : List (List UInt8)} {size : ℕ}
    (h : readFull answers size = some (b, rest)) : b.length = size := by
  induction answers generalizing size b rest with
  | nil =>
    rw [readFull] at h
    split_ifs at h with hs
    obtain ⟨rfl, -⟩ := Prod.mk.inj (Option.some.inj h)
    exact hs.symm
  | cons got answers ih =>
    rw [readFull] at h
    split_ifs at h with hs
    · obtain ⟨rfl, -⟩ := Prod.mk.inj (Option.some.inj h)
      exact hs.symm
    · obtain ⟨⟨b', rest'⟩, hread, heq⟩ := Option.map_eq_some_iff.1 h
      obtain ⟨rfl, -⟩ := Prod.mk.inj heq
      have := ih hread
      have := List.length_take_le size got
      rw [List.length_append]
      omega

theorem openWindow_yields (answers : List (List UInt8)) :
    Yields (openWindow answers) fun r ↦ ∀ win ∈ r, ∃ b, Received answers b ∧ win.Ready b := by
  unfold openWindow
  split
  · exact refused_yields
  · rename_i hdr answers' hhdr
    have hlen := readFull_length hhdr
    refine (xrd8_yields (by omega)).bind fun status _ ↦ ?_
    refine (xrd16_yields (by omega)).bind fun words _ ↦ ?_
    split
    · exact refused_yields
    split
    · exact refused_yields
    · rename_i hok b rest hbody
      have hlen := readFull_length hbody
      refine (parseBody_yields (by omega)).mono fun r hr win hwin ↦
        ⟨b, ⟨hdr, answers', rest, hhdr, ?_⟩, hr win hwin⟩
      rwa [hlen]

end YabroOS.Ports
