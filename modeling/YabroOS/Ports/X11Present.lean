import YabroOS.Lib.EditBuffer
import YabroOS.Lib.LittleEndian
import YabroOS.Ports.X11Setup

namespace YabroOS.Ports

open Lib

def imageBytes : ℕ := 640 * 400 * 4

def lowBit (mask shift : ℕ) : ℕ × ℕ :=
  if mask = 0 ∨ mask % 2 = 1 then (mask, shift) else lowBit (mask / 2) (shift + 1)
termination_by mask
decreasing_by omega

def packComponent (c : UInt8) (mask : ℕ) : ℕ :=
  if mask = 0 then 0
  else
    let (low, shift) := lowBit mask 0
    (((c.toNat * low + 127) / 255) <<< shift) % 2 ^ 32 &&& mask

def packPixel (masks : Masks) (r g b : UInt8) : ℕ :=
  packComponent r masks.red ||| packComponent g masks.green ||| packComponent b masks.blue

def pixelBytes (imageOrder pixel : ℕ) : List UInt8 :=
  if imageOrder = 0 then toLE 4 pixel else (toLE 4 pixel).reverse

/-- The packed pixel of the source that is at a place of the window, none where it is outside of the
source. -/
def sourcePixel (win : Window) (src : List UInt8) (x y : ℕ) : Option ℕ := do
  let p := (y * 200 / win.height * 320 + x * 320 / win.width) * 4
  let r ← src[p]?
  let g ← src[p + 1]?
  let b ← src[p + 2]?
  some (packPixel win.masks r g b)

def putPixel (win : Window) (src : List UInt8) (y x : ℕ) (image : ℕ → UInt8) :
    Option (ℕ → UInt8) := do
  let pixel ← sourcePixel win src x y
  writeList imageBytes (pixelBytes win.imageOrder pixel) (y * win.rowBytes + x * 4) image

def drawImage (win : Window) (src : List UInt8) (image : ℕ → UInt8) : Option (ℕ → UInt8) :=
  forRange 0 win.height (fun y ↦ forRange 0 win.width (putPixel win src y)) image

def writeFull : List ℕ → List UInt8 → List UInt8 × List ℕ × Bool
  | answers, [] => ([], answers, true)
  | [], _ => ([], [], false)
  | n :: answers, b =>
    if n = 0 then ([], answers, false)
    else
      let (sent, rest, ok) := writeFull answers (b.drop n)
      (b.take n ++ sent, rest, ok)

def putImage (win : Window) (y rows words : ℕ) : List UInt8 :=
  [72, 2] ++ toLE 2 words ++ toLE 4 win.id.toNat ++ toLE 4 win.gc.toNat ++ toLE 2 win.width ++
    toLE 2 rows ++ toLE 2 0 ++ toLE 2 y ++ [0, UInt8.ofNat win.depth, 0, 0]

/-- The loop over the requests in a number of rounds: what is sent and whether all is. -/
def sendRows (win : Window) (image : ℕ → UInt8) (rows : ℕ) :
    ℕ → ℕ → List ℕ → Option (List UInt8 × Bool)
  | 0, y, _ => if win.height ≤ y then some ([], true) else none
  | n + 1, y, answers =>
    if win.height ≤ y then some ([], true)
    else
      let ch := min rows (win.height - y)
      let payload := win.rowBytes * ch
      let total := 24 + payload
      if total % 4 ≠ 0 ∨ win.maxRequest < total / 4 ∨ 65535 < total / 4 then some ([], false)
      else
        let (head, answers, ok) := writeFull answers (putImage win y ch (total / 4))
        if !ok then some (head, false)
        else if imageBytes < y * win.rowBytes + payload then none
        else
          let (data, answers, ok) :=
            writeFull answers ((List.range payload).map fun i ↦ image (y * win.rowBytes + i))
          if !ok then some (head ++ data, false)
          else (sendRows win image rows n (y + ch) answers).map fun (sent, ok) ↦
            (head ++ data ++ sent, ok)

/-- `doom_present_x11_buffer`: none where it gets outside of the image or of the source, else what
it sends and whether it returns zero. -/
def present (win : Window) (src : Option (List UInt8)) (image : ℕ → UInt8) (answers : List ℕ) :
    Option (List UInt8 × Bool) :=
  match src with
  | none => some ([], false)
  | some src => do
    let image ← drawImage win src image
    if win.maxRequest * 4 ≤ 24 then return ([], false)
    let rows := (win.maxRequest * 4 - 24) / win.rowBytes
    if rows = 0 then return ([], false)
    sendRows win image (min rows win.height) win.height 0 answers

/-- The bytes are a request for `rows` rows from `y` on, no longer than the server takes, with the
pixels of the source. -/
structure IsPutImage (win : Window) (src : List UInt8) (y rows : ℕ) (bytes : List UInt8) :
    Prop where
  opcode : xrd8 bytes 0 = some 72
  words : xrd16 bytes 2 = some (bytes.length / 4)
  length_eq : bytes.length = 24 + win.rowBytes * rows
  whole : bytes.length % 4 = 0
  limit : bytes.length / 4 ≤ win.maxRequest
  width : xrd16 bytes 12 = some win.width
  height : xrd16 bytes 14 = some rows
  top : xrd16 bytes 18 = some y
  pixels : ∀ i < rows, ∀ x < win.width, ∃ pixel, sourcePixel win src x (y + i) = some pixel ∧
    (bytes.drop (24 + (i * win.rowBytes + x * 4))).take 4 = pixelBytes win.imageOrder pixel

/-- The bytes are requests whose rows follow each other from `y` to the last one. -/
inductive IsFrame (win : Window) (src : List UInt8) : ℕ → List UInt8 → Prop
  | done : IsFrame win src win.height []
  | next {y rows : ℕ} {bytes rest : List UInt8} (hpos : 0 < rows)
    (h : IsPutImage win src y rows bytes)
      (hrest : IsFrame win src (y + rows) rest) : IsFrame win src y (bytes ++ rest)

structure Window.Fits (win : Window) : Prop where
  size : win.width = 640 ∧ win.height = 400 ∨ win.width = 320 ∧ win.height = 200
  limit : win.maxRequest ≤ 65535
  stride : win.rowBytes = win.width * 4

variable {win : Window} {b src : List UInt8} {image image' : ℕ → UInt8} {x y i n k rows : ℕ}

theorem Window.Ready.fits (h : win.Ready b)
    (hpad : win.pad = 8 ∨ win.pad = 16 ∨ win.pad = 32 ∨ win.pad = 64) : win.Fits := by
  have hlimit : win.maxRequest ≤ 65535 := by
    obtain ⟨limit, hlt, -, hmax⟩ := h.limit
    rw [hmax]
    split_ifs <;> omega
  refine ⟨h.size, hlimit, ?_⟩
  rw [h.stride]
  rcases h.size with ⟨hw, -⟩ | ⟨hw, -⟩ <;> rcases hpad with hp | hp | hp | hp <;> rw [hw, hp]

theorem lowBit_field {w : ℕ} (hw : 0 < w) (s k : ℕ) :
    lowBit ((2 ^ w - 1) <<< s) k = (2 ^ w - 1, k + s) := by
  have hodd : (2 ^ w - 1) % 2 = 1 := by
    obtain ⟨v, rfl⟩ := Nat.exists_eq_add_of_lt hw
    have := Nat.one_le_two_pow (n := v)
    rw [Nat.zero_add, Nat.pow_succ]
    omega
  induction s generalizing k with
  | zero => rw [lowBit, if_pos (.inr hodd), Nat.shiftLeft_zero, Nat.add_zero]
  | succ s ih =>
    have hpos : 0 < (2 ^ w - 1) <<< s := Nat.pos_of_ne_zero fun h ↦ by
      rw [Nat.shiftLeft_eq_zero_iff] at h
      omega
    rw [Nat.shiftLeft_succ, lowBit, if_neg (by omega),
      Nat.mul_div_cancel_left _ Nat.two_pos, ih, Nat.add_assoc, Nat.add_comm 1 s]

theorem packComponent_field (c : UInt8) {w s : ℕ} (hw : 0 < w) (h : w + s ≤ 32) :
    packComponent c ((2 ^ w - 1) <<< s) = ((c.toNat * (2 ^ w - 1) + 127) / 255) <<< s := by
  have hc : c.toNat < 2 ^ 8 := c.toNat_lt
  have hone : 1 < 2 ^ w := Nat.one_lt_two_pow hw.ne'
  have hle : (c.toNat * (2 ^ w - 1) + 127) / 255 < 2 ^ w := by
    have : c.toNat * (2 ^ w - 1) ≤ 255 * (2 ^ w - 1) := Nat.mul_le_mul_right _ (by omega)
    omega
  have hne : (2 ^ w - 1) <<< s ≠ 0 := fun h ↦ by
    rw [Nat.shiftLeft_eq_zero_iff] at h
    omega
  have hlt : ((c.toNat * (2 ^ w - 1) + 127) / 255) <<< s < 2 ^ 32 := by
    rw [Nat.shiftLeft_eq]
    calc _ < 2 ^ w * 2 ^ s := Nat.mul_lt_mul_of_pos_right hle (Nat.two_pow_pos s)
      _ = 2 ^ (w + s) := (Nat.pow_add 2 w s).symm
      _ ≤ 2 ^ 32 := Nat.pow_le_pow_right Nat.two_pos h
  rw [packComponent, if_neg hne, lowBit_field hw, Nat.zero_add]
  dsimp only
  rw [Nat.mod_eq_of_lt hlt, ← Nat.shiftLeft_and_distrib, Nat.and_two_pow_sub_one_of_lt_two_pow hle]

theorem length_pixelBytes (imageOrder pixel : ℕ) : (pixelBytes imageOrder pixel).length = 4 := by
  unfold pixelBytes
  split_ifs
  · exact length_toLE
  · rw [List.length_reverse, length_toLE]

def Drawn (win : Window) (src : List UInt8) (image : ℕ → UInt8) (y x : ℕ) : Prop :=
  ∃ pixel, sourcePixel win src x y = some pixel ∧
    Holds image (y * win.rowBytes + x * 4) (pixelBytes win.imageOrder pixel)

theorem sourcePixel_isSome (h : win.Fits) (hsrc : src.length = 320 * 200 * 4) (hx : x < win.width)
    (hy : y < win.height) : ∃ pixel, sourcePixel win src x y = some pixel := by
  have hin : (y * 200 / win.height * 320 + x * 320 / win.width) * 4 + 2 < src.length := by
    rcases h.size with ⟨hw, hh⟩ | ⟨hw, hh⟩ <;> rw [hw] at hx ⊢ <;> rw [hh] at hy ⊢ <;> omega
  unfold sourcePixel
  dsimp only
  rw [List.getElem?_eq_getElem (by omega), List.getElem?_eq_getElem (by omega),
    List.getElem?_eq_getElem hin]
  exact ⟨_, rfl⟩

theorem offset_lt (h : win.Fits) (hx : x < win.width) (hy : y < win.height) :
    y * win.rowBytes + x * 4 + 4 ≤ imageBytes := by
  unfold imageBytes
  rw [h.stride]
  rcases h.size with ⟨hw, hh⟩ | ⟨hw, hh⟩ <;> rw [hw] at hx ⊢ <;> rw [hh] at hy <;> omega

theorem putPixel_yields (h : win.Fits) (hsrc : src.length = 320 * 200 * 4) (hx : x < win.width)
    (hy : y < win.height) :
    Yields (putPixel win src y x image) fun image' ↦ Drawn win src image' y x ∧
      Keeps image image' (y * win.rowBytes + x * 4) 4 := by
  obtain ⟨pixel, hpixel⟩ := sourcePixel_isSome h hsrc hx hy
  have hlen := length_pixelBytes win.imageOrder pixel
  have hfit : y * win.rowBytes + x * 4 + (pixelBytes win.imageOrder pixel).length ≤ imageBytes := by
    rw [hlen]
    exact offset_lt h hx hy
  obtain ⟨image', hwrite, hholds, hkeeps⟩ := writeList_spec imageBytes image hfit
  rw [hlen] at hkeeps
  refine ⟨image', ?_, ⟨pixel, hpixel, hholds⟩, hkeeps⟩
  rw [putPixel, hpixel]
  exact hwrite

theorem Drawn.kept {m : ℕ} (h : Drawn win src image y x) (hk : Keeps image image' k m)
    (hle : y * win.rowBytes + x * 4 + 4 ≤ k) : Drawn win src image' y x := by
  obtain ⟨pixel, hpixel, hholds⟩ := h
  exact ⟨pixel, hpixel, hholds.kept hk (.inl (by rw [length_pixelBytes]; exact hle))⟩

theorem row_before {y' x' : ℕ} (h : win.Fits) (hx : x' < win.width) (hy : y' < y) :
    y' * win.rowBytes + x' * 4 + 4 ≤ y * win.rowBytes := by
  rw [h.stride]
  calc y' * (win.width * 4) + x' * 4 + 4 ≤ (y' + 1) * (win.width * 4) := by rw [Nat.add_mul]; omega
    _ ≤ y * (win.width * 4) := Nat.mul_le_mul_right _ hy

theorem drawImage_yields (h : win.Fits) (hsrc : src.length = 320 * 200 * 4) (image : ℕ → UInt8) :
    Yields (drawImage win src image) fun image' ↦ ∀ y < win.height, ∀ x < win.width, Drawn win src
      image' y x := by
  unfold drawImage
  refine Yields.forRange_index
    (P := fun n image' ↦ ∀ y < n, ∀ x < win.width, Drawn win src image' y x) (Nat.zero_le _)
    (fun y _ hy image hrows ↦ ?_) fun _ hy ↦ absurd hy (Nat.not_lt_zero _)
  refine (Yields.forRange_index
    (P := fun n image' ↦ (∀ y' < y, ∀ x < win.width, Drawn win src image' y' x) ∧
    ∀ x < n, Drawn win src image' y x) (Nat.zero_le _) (fun x _ hx image hdrawn ↦ ?_)
    ⟨hrows, fun _ hx ↦ absurd hx (Nat.not_lt_zero _)⟩).mono fun image' hdrawn y' hy' x hx ↦ ?_
  · refine (putPixel_yields h hsrc hx hy).mono fun image' hput ↦
      ⟨fun y' hy' x' hx' ↦ ?_, fun x' hx' ↦ ?_⟩
    · have hbefore := row_before h hx' hy'
      exact (hdrawn.1 y' hy' x' hx').kept hput.2 (by omega)
    · rcases Nat.lt_succ_iff_lt_or_eq.1 hx' with hlt | rfl
      · exact (hdrawn.2 x' hlt).kept hput.2 (by omega)
      · exact hput.1
  · rcases Nat.lt_succ_iff_lt_or_eq.1 hy' with hlt | rfl
    · exact hdrawn.1 y' hlt x hx
    · exact hdrawn.2 x hx

theorem writeFull_ok {answers rest : List ℕ} {sent : List UInt8}
    (h : writeFull answers b = (sent, rest, true)) : sent = b := by
  induction answers generalizing b sent with
  | nil =>
    cases b with
    | nil => exact (Prod.mk.inj h).1.symm
    | cons c b => cases h
  | cons n answers ih =>
    cases b with
    | nil => exact (Prod.mk.inj h).1.symm
    | cons c b =>
      unfold writeFull at h
      split_ifs at h with hn
      · cases h
      · obtain ⟨rfl, hrest⟩ := Prod.mk.inj h
        rw [@ih ((c :: b).drop n) (writeFull answers ((c :: b).drop n)).1 (Prod.ext rfl hrest),
          List.take_append_drop]

theorem take_drop_map_range {f : ℕ → UInt8} (l : List UInt8)
    (hf : ∀ j (hj : j < l.length), f (k + j) = l[j]) (hn : k + l.length ≤ n) :
    (((List.range n).map f).drop k).take l.length = l := by
  refine List.ext_getElem
    (by rw [List.length_take, List.length_drop, List.length_map, List.length_range]; omega)
      fun j hj hj' ↦ ?_
  rw [List.getElem_take, List.getElem_drop, List.getElem_map, List.getElem_range, hf j hj']

theorem two_bytes (hn : n < 2 ^ 16) :
    (UInt8.ofNat n).toNat + 2 ^ 8 * (UInt8.ofNat (n / 256)).toNat = n := by
  have hlow : (UInt8.ofNat n).toNat = n % 256 := rfl
  have hhigh : (UInt8.ofNat (n / 256)).toNat = n / 256 % 256 := rfl
  omega

theorem length_putImage (win : Window) (y rows words : ℕ) :
    (putImage win y rows words).length = 24 := rfl

theorem isPutImage (h : win.Fits)
    (hdrawn : ∀ y < win.height, ∀ x < win.width, Drawn win src image y x)
    (hy : y + rows ≤ win.height) (hlimit : (24 + win.rowBytes * rows) / 4 ≤ win.maxRequest) :
    IsPutImage win src y rows (putImage win y rows ((24 + win.rowBytes * rows) / 4) ++
      (List.range (win.rowBytes * rows)).map fun i ↦ image (y * win.rowBytes + i)) := by
  have hlen : (putImage win y rows ((24 + win.rowBytes * rows) / 4) ++
      (List.range (win.rowBytes * rows)).map fun i ↦ image (y * win.rowBytes + i)).length = 24 +
        win.rowBytes * rows := by
    rw [List.length_append, length_putImage, List.length_map, List.length_range]
  have hwords : (24 + win.rowBytes * rows) / 4 < 2 ^ 16 := by
    have := h.limit
    omega
  have hheight : win.height ≤ 400 := by rcases h.size with ⟨-, hh⟩ | ⟨-, hh⟩ <;> omega
  have hwidth : win.width < 2 ^ 16 := by rcases h.size with ⟨hw, -⟩ | ⟨hw, -⟩ <;> omega
  refine ⟨rfl, ?_, hlen, ?_, by rwa [hlen], congrArg some (two_bytes hwidth),
    congrArg some (two_bytes (by omega)),
    congrArg some (two_bytes (by omega)), fun i hi x hx ↦ ?_⟩
  · rw [hlen]
    exact congrArg some (two_bytes hwords)
  · rw [hlen, h.stride, Nat.mul_comm win.width, Nat.mul_assoc]
    omega
  · obtain ⟨pixel, hpixel, hholds⟩ := hdrawn (y + i) (by omega) x hx
    refine ⟨pixel, hpixel, ?_⟩
    have hp := length_pixelBytes win.imageOrder pixel
    have hrow := row_before (y := rows) h hx hi
    rw [← List.drop_drop, List.drop_left' (length_putImage ..)]
    have htake :=
      take_drop_map_range (f := fun i ↦ image (y * win.rowBytes + i))
        (k := i * win.rowBytes + x * 4) (n := win.rowBytes * rows)
      (pixelBytes win.imageOrder pixel) (fun j hj ↦ ?_)
        (by rw [hp, Nat.mul_comm win.rowBytes]; omega)
    · rwa [hp] at htake
    · rw [← hholds j hj]
      congr 1
      rw [Nat.add_mul]
      omega

theorem sendRows_yields {answers : List ℕ} (h : win.Fits)
    (hdrawn : ∀ y < win.height, ∀ x < win.width, Drawn win src image y x) (hpos : 0 < rows)
    (hy : y ≤ win.height) (hn : win.height ≤ y + n) :
    Yields (sendRows win image rows n y answers) fun r ↦ r.2 = true → IsFrame win src y r.1 := by
  induction n generalizing y answers with
  | zero =>
    obtain rfl : y = win.height := Nat.le_antisymm hy hn
    rw [sendRows, if_pos (Nat.le_refl _)]
    exact .ret fun _ ↦ .done
  | succ n ih =>
    unfold sendRows
    split_ifs with hend
    · obtain rfl : y = win.height := Nat.le_antisymm hy hend
      exact .ret fun _ ↦ .done
    dsimp only
    have hch : y + min rows (win.height - y) ≤ win.height := by omega
    have hchpos : 0 < min rows (win.height - y) := by omega
    generalize min rows (win.height - y) = ch at hch hchpos
    split
    · exact .ret fun hok ↦ Bool.noConfusion hok
    rename_i hlimit
    rw [not_or, not_or] at hlimit
    have hsent := isPutImage h hdrawn hch (by omega)
    rcases hhead : writeFull answers (putImage win y ch ((24 + win.rowBytes * ch) / 4))
      with ⟨head, answers', ok⟩
    dsimp only
    cases ok with
    | false => exact .ret fun hok ↦ Bool.noConfusion hok
    | true =>
      rw [if_neg (by decide)]
      have hin : ¬imageBytes < y * win.rowBytes + win.rowBytes * ch := by
        have hx : win.width - 1 < win.width := by rcases h.size with ⟨hw, -⟩ | ⟨hw, -⟩ <;> omega
        have hlast := offset_lt (x := win.width - 1) (y := y + ch - 1) h hx (by omega)
        have hrow : (y + ch) * win.rowBytes = (y + ch - 1) * win.rowBytes + win.rowBytes := by
          rw [← Nat.succ_mul]
          congr 1
          omega
        rw [Nat.mul_comm win.rowBytes, ← Nat.add_mul, hrow]
        have := h.stride
        omega
      rw [if_neg hin]
      rcases hdata : writeFull answers' ((List.range (win.rowBytes * ch)).map fun i ↦
        image (y * win.rowBytes + i)) with ⟨data, answers'', ok⟩
      dsimp only
      cases ok with
      | false => exact .ret fun hok ↦ Bool.noConfusion hok
      | true =>
        rw [if_neg (by decide)]
        obtain ⟨⟨sent, ok⟩, hrun, hframe⟩ := @ih (y + ch) answers'' hch (by omega)
        refine ⟨(head ++ data ++ sent, ok), by rw [hrun]; rfl, fun hok ↦ ?_⟩
        rw [writeFull_ok hhead, writeFull_ok hdata]
        exact .next hchpos hsent (hframe hok)

theorem present_yields (h : win.Fits) (hsrc : src.length = 320 * 200 * 4) (image : ℕ → UInt8)
    (answers : List ℕ) :
    Yields (present win (some src) image answers) fun r ↦ r.2 = true → IsFrame win src 0 r.1 := by
  unfold present
  refine (drawImage_yields h hsrc image).bind fun image' hdrawn ↦ ?_
  split
  · exact .ret fun hok ↦ Bool.noConfusion hok
  dsimp only
  split
  · exact .ret fun hok ↦ Bool.noConfusion hok
  rename_i hrows
  have hheight : 0 < win.height := by rcases h.size with ⟨-, hh⟩ | ⟨-, hh⟩ <;> omega
  exact sendRows_yields h hdrawn (Nat.lt_min.2 ⟨Nat.pos_of_ne_zero hrows, hheight⟩) (Nat.zero_le _)
    (Nat.le_of_eq (Nat.zero_add _).symm)

theorem writeFull_replicate (hb : b.length ≤ k) (hne : b ≠ []) :
    writeFull (List.replicate (n + 1) k) b = (b, List.replicate n k, true) := by
  have hpos := List.length_pos_of_ne_nil hne
  obtain ⟨c, b, rfl⟩ := List.exists_cons_of_ne_nil hne
  have hdone (answers : List ℕ) : writeFull answers [] = ([], answers, true) := by
    cases answers <;> rfl
  rw [List.replicate_succ, writeFull, if_neg (by omega), List.drop_eq_nil_of_le hb, hdone,
    List.take_of_length_le hb]
  · dsimp only
    rw [List.append_nil]
  · exact hne

theorem sendRows_ok (h : win.Fits) (hpos : 0 < rows)
    (hlimit : 24 + win.rowBytes * rows ≤ win.maxRequest * 4) (hk : imageBytes ≤ k)
    (hy : y ≤ win.height) (hn : win.height ≤ y + n) :
    ∃ sent, sendRows win image rows n y (List.replicate (2 * n) k) = some (sent, true) := by
  induction n generalizing y with
  | zero => exact ⟨[], if_pos hn⟩
  | succ n ih =>
    unfold sendRows
    split_ifs with hend
    · exact ⟨[], rfl⟩
    dsimp only
    have hch : y + min rows (win.height - y) ≤ win.height := by omega
    have hchpos : 0 < min rows (win.height - y) := by omega
    have hle : win.rowBytes * min rows (win.height - y) ≤ win.rowBytes * rows :=
      Nat.mul_le_mul_left _ (Nat.min_le_left _ _)
    generalize min rows (win.height - y) = ch at hch hchpos hle
    have hmul : win.rowBytes * ch % 4 = 0 := by
      rw [h.stride, Nat.mul_comm win.width, Nat.mul_assoc, Nat.mul_mod_right]
    have hrowBytes : 0 < win.rowBytes := by
      have := h.stride
      rcases h.size with ⟨hw, -⟩ | ⟨hw, -⟩ <;> omega
    have hdata : 0 < win.rowBytes * ch := Nat.mul_pos hrowBytes hchpos
    have hin : y * win.rowBytes + win.rowBytes * ch ≤ imageBytes := by
      rw [Nat.mul_comm win.rowBytes, ← Nat.add_mul, h.stride]
      refine Nat.le_trans (Nat.mul_le_mul_right _ hch) ?_
      rcases h.size with ⟨hw, hh⟩ | ⟨hw, hh⟩ <;> rw [hw, hh] <;> decide
    have := h.limit
    have hsent₁ : writeFull (List.replicate (2 * (n + 1)) k)
        (putImage win y ch ((24 + win.rowBytes * ch) / 4)) = (_, _, true) :=
      writeFull_replicate (n := 2 * n + 1)
        (by rw [length_putImage]; exact Nat.le_trans (by decide) hk)
        (List.ne_nil_of_length_pos (by rw [length_putImage]; decide))
    have hsent₂ : writeFull (List.replicate (2 * n + 1) k)
        ((List.range (win.rowBytes * ch)).map fun i ↦ image (y * win.rowBytes + i)) =
        (_, _, true) := writeFull_replicate (by rw [List.length_map, List.length_range]; omega)
      (List.ne_nil_of_length_pos (by rwa [List.length_map, List.length_range]))
    rw [if_neg (by omega), hsent₁]
    dsimp only
    rw [if_neg (by decide), if_neg (by omega), hsent₂]
    dsimp only
    obtain ⟨sent, hsent⟩ := @ih (y + ch) hch (by omega)
    rw [if_neg (by decide), hsent]
    exact ⟨_, rfl⟩

theorem present_ok (h : win.Fits) (hsrc : src.length = 320 * 200 * 4)
    (hlimit : 24 + win.rowBytes ≤ win.maxRequest * 4) (hk : imageBytes ≤ k) (image : ℕ → UInt8) :
    ∃ sent, present win (some src) image (List.replicate (2 * win.height) k) =
      some (sent, true) := by
  obtain ⟨image', hdraw, -⟩ := drawImage_yields h hsrc image
  have hrowBytes : 0 < win.rowBytes := by
    have := h.stride
    rcases h.size with ⟨hw, -⟩ | ⟨hw, -⟩ <;> omega
  have hrows : 0 < (win.maxRequest * 4 - 24) / win.rowBytes := Nat.div_pos (by omega) hrowBytes
  have hheight : 0 < win.height := by rcases h.size with ⟨-, hh⟩ | ⟨-, hh⟩ <;> omega
  simp only [present, hdraw, Option.bind_eq_bind, Option.bind_some]
  rw [if_neg (by omega), if_neg (by omega)]
  refine sendRows_ok h (Nat.lt_min.2 ⟨hrows, hheight⟩) ?_ hk (Nat.zero_le _)
    (Nat.le_of_eq (Nat.zero_add _).symm)
  have hmul := Nat.mul_div_le (win.maxRequest * 4 - 24) win.rowBytes
  have hle : win.rowBytes * min ((win.maxRequest * 4 - 24) / win.rowBytes) win.height ≤
      win.rowBytes * ((win.maxRequest * 4 - 24) / win.rowBytes) :=
    Nat.mul_le_mul_left _ (Nat.min_le_left _ _)
  omega

/-- Whatever the server sends, its reply is read inside of the body; and where the window opens with
a pad that the protocol has, each call to present stays inside of the image and of the source, and
sends the whole source in requests that the server takes if it returns zero. -/
theorem frames_sent (answers : List (List UInt8)) :
    (openWindow answers).isSome ∧
      ∀ win, openWindow answers = some (some win) →
        (win.pad = 8 ∨ win.pad = 16 ∨ win.pad = 32 ∨ win.pad = 64) →
        (∃ b limit visual, Received answers b ∧ xrd16 b 18 = some limit ∧
          win.maxRequest = (if limit = 0 then 65535 else limit) ∧
          rootVisual b = some visual ∧ win.masks.OfVisual b visual) ∧
        ∀ src : List UInt8, src.length = 320 * 200 * 4 → ∀ image writes, ∃ sent ok,
          present win (some src) image writes = some (sent, ok) ∧
            (ok = true → IsFrame win src 0 sent) := by
  obtain ⟨r, hopen, hready⟩ := openWindow_yields answers
  rw [hopen]
  refine ⟨rfl, fun win hwin hpad ↦ ?_⟩
  obtain ⟨b, hreceived, hb⟩ := hready win (Option.some.inj hwin)
  obtain ⟨limit, -, hlimit⟩ := hb.limit
  obtain ⟨visual, hvisual, hmasks⟩ := hb.visual
  refine ⟨⟨b, limit, visual, hreceived, hlimit.1, hlimit.2, hvisual, hmasks⟩,
    fun src hsrc image writes ↦ ?_⟩
  obtain ⟨⟨sent, ok⟩, hpresent, hframe⟩ := present_yields (hb.fits hpad) hsrc image writes
  exact ⟨sent, ok, hpresent, hframe⟩

def oneVisual : List UInt8 :=
  [0, 0, 0, 0] ++ toLE 4 0x200000 ++ toLE 4 0x1fffff ++ toLE 4 0 ++ toLE 2 0 ++ toLE 2 65535 ++
    [1, 1, 0, 0] ++ toLE 4 0 ++ toLE 4 0 ++
    [24, 32, 32, 0, 0, 0, 0, 0] ++ List.replicate 20 0 ++ toLE 2 1024 ++ toLE 2 768 ++
      List.replicate 8 0 ++ toLE 4 33 ++ [0, 0, 24, 1] ++
    [24, 0, 1, 0, 0, 0, 0, 0] ++ toLE 4 33 ++ toLE 4 0 ++ toLE 4 0xff0000 ++ toLE 4 0xff00 ++
      toLE 4 0xff ++ toLE 4 0

/-- A source where the component at place `i` is `i % 256`, no two neighbours alike. -/
def rampSource : List UInt8 := (List.range (320 * 200 * 4)).map UInt8.ofNat

theorem length_rampSource : rampSource.length = 320 * 200 * 4 := by
  rw [rampSource, List.length_map, List.length_range]

theorem rampSource_get {p : ℕ} (h : p < 320 * 200 * 4) : rampSource[p]? = some (UInt8.ofNat p) := by
  rw [rampSource, List.getElem?_map, List.getElem?_range h, Option.map_some]

theorem frames_sent_oneVisual :
    ∃ win sent, openWindow [[1, 0, 11, 0, 0, 0, 28, 0], oneVisual] = some (some win) ∧
      present win (some rampSource) (fun _ ↦ 0) (List.replicate 800 imageBytes) = some (sent, true) ∧
      IsFrame win rampSource 0 sent ∧ sourcePixel win rampSource 3 1 = some 0x040506 ∧
      sourcePixel win rampSource 639 399 = some 0xfcfdfe := by
  let win : Window :=
    ⟨640, 400, 65535, 24, 32, 0, 2560, ⟨0xff0000, 0xff00, 0xff⟩, 0x200001, 0x200002⟩
  have hopen : openWindow [[1, 0, 11, 0, 0, 0, 28, 0], oneVisual] = some (some win) := by
    decide +kernel
  have hfits : win.Fits := ⟨.inl ⟨rfl, rfl⟩, by decide, rfl⟩
  obtain ⟨sent, hsent⟩ :=
    present_ok hfits length_rampSource (by decide) (Nat.le_refl imageBytes) fun _ ↦ 0
  obtain ⟨sent', ok, hpresent, hframe⟩ :=
    ((frames_sent _).2 win hopen (.inr (.inr (.inl rfl)))).2 rampSource length_rampSource
      (fun _ ↦ 0) (List.replicate 800 imageBytes)
  obtain ⟨rfl, rfl⟩ := Prod.mk.inj (Option.some.inj (hpresent.symm.trans hsent))
  refine ⟨win, sent', hopen, hpresent, hframe rfl, ?_, ?_⟩
  all_goals
    simp only [sourcePixel, win]
    rw [rampSource_get (by decide), rampSource_get (by decide), rampSource_get (by decide)]
    decide +kernel

end YabroOS.Ports
