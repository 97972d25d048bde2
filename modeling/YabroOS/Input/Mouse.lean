import Mathlib.Data.List.Basic
import Mathlib.Algebra.BigOperators.Group.List.Basic
import Mathlib.Tactic.Ring

namespace YabroOS.Input

def evSyn : UInt16 := 0
def evKey : UInt16 := 1
def evRel : UInt16 := 2
def synReport : UInt16 := 0
def relX : UInt16 := 0
def relY : UInt16 := 1
def btnLeft : UInt16 := 0x110

/-- The arguments of a call of `mouse_push_event`. -/
structure MousePush where
  type : UInt16
  code : UInt16
  value : Int32
  deriving DecidableEq

def syn : MousePush := ⟨evSyn, synReport, 0⟩

/-- `mouse_packet` up to its position, `mouse_buttons`, and the events that were pushed. -/
structure MouseDecoder where
  packet : List UInt8
  buttons : UInt8
  pushes : List MousePush
  deriving DecidableEq

namespace MouseDecoder

def init : MouseDecoder := ⟨[], 0, []⟩

def buttonEvents (old new : UInt8) : List MousePush :=
  [0, 1, 2].filterMap fun bit ↦
    if (new ^^^ old) &&& UInt8.ofNat (2 ^ bit) ≠ 0 then
      some ⟨evKey, btnLeft + UInt16.ofNat bit, if new &&& UInt8.ofNat (2 ^ bit) ≠ 0 then 1 else 0⟩
    else none

def motionEvents (dx dy : Int32) : List MousePush :=
  (if dx ≠ 0 then [⟨evRel, relX, dx⟩] else []) ++ if dy ≠ 0 then [⟨evRel, relY, dy⟩] else []

def packetDone (d : MouseDecoder) (flags x y : UInt8) : MouseDecoder :=
  let buttons := flags &&& 0x07
  if flags &&& 0xC0 ≠ 0 then { d with packet := [], pushes := d.pushes ++ [syn] }
  else
    let dx := x.toInt8.toInt32
    let dy := -y.toInt8.toInt32
    ⟨[], buttons, d.pushes ++ (motionEvents dx dy ++ buttonEvents d.buttons buttons ++ [syn])⟩

def mouseProcessByte (d : MouseDecoder) (b : UInt8) : MouseDecoder :=
  if d.packet = [] ∧ b &&& 0x08 = 0 then d
  else
    match d.packet ++ [b] with
    | [flags, x, y] => d.packetDone flags x y
    | packet => { d with packet := packet }

end MouseDecoder

/-- The decoder at the controller, whose output buffer has the bytes of the mouse and of the
keyboard. -/
structure Mouse where
  decoder : MouseDecoder
  port : List (Bool × UInt8)
  irq12Hits : ℕ

/-- A byte comes to the controller, of the mouse or of the keyboard; the keyboard's handlers take at
most `n` bytes; or `ps2_mouse_poll` or `mouse_handler` runs. -/
inductive MouseOp
  | arrive (aux : Bool) (b : UInt8)
  | keyboard (n : ℕ)
  | poll
  | irq

namespace Mouse

def init : Mouse := ⟨.init, [], 0⟩

def drain : ℕ → Mouse → Mouse
  | 0, m => m
  | n + 1, m =>
    match m.port with
    | (true, b) :: port => drain n { m with decoder := m.decoder.mouseProcessByte b, port := port }
    | _ => m

def keyboardTake : ℕ → List (Bool × UInt8) → List (Bool × UInt8)
  | n + 1, (false, _) :: port => keyboardTake n port
  | _, port => port

def ps2MousePoll (m : Mouse) : Mouse := if m.irq12Hits ≠ 0 then m else m.drain 8

def mouseHandler (m : Mouse) : Mouse := { m with irq12Hits := m.irq12Hits + 1 }.drain 8

def step (m : Mouse) : MouseOp → Mouse
  | .arrive aux b => { m with port := m.port ++ [(aux, b)] }
  | .keyboard n => { m with port := keyboardTake n m.port }
  | .poll => m.ps2MousePoll
  | .irq => m.mouseHandler

def run (m : Mouse) (ops : List MouseOp) : Mouse := ops.foldl step m

end Mouse

structure MousePacket where
  flags : UInt8
  x : UInt8
  y : UInt8

namespace MousePacket

structure WellFormed (p : MousePacket) : Prop where
  sync : p.flags &&& 0x08 ≠ 0
  inRange : p.flags &&& 0xC0 = 0

def bytes (p : MousePacket) : List UInt8 := [p.flags, p.x, p.y]

def dx (p : MousePacket) : ℤ := p.x.toNat - if p.flags &&& 0x10 ≠ 0 then 256 else 0
def dy (p : MousePacket) : ℤ := p.y.toNat - if p.flags &&& 0x20 ≠ 0 then 256 else 0

def buttons (p : MousePacket) : ℕ := p.flags.toNat % 8

end MousePacket

def buttonChanges (old new : ℕ) : List MousePush :=
  ([0, 1, 2].filter fun bit ↦ old.testBit bit ≠ new.testBit bit).map
    fun bit ↦ ⟨evKey, btnLeft + UInt16.ofNat bit, if new.testBit bit then 1 else 0⟩

/-- The events of one packet: those of the buttons replay the changes, and the only report ends
them. -/
structure PacketEvents (old : ℕ) (p : MousePacket) (l : List MousePush) : Prop where
  ends : ∃ body, l = body ++ [syn] ∧ ∀ e ∈ body, e.type ≠ evSyn
  keys : l.filter (fun e ↦ e.type = evKey) = buttonChanges old p.buttons

inductive StreamEvents : ℕ → List MousePacket → List MousePush → Prop
  | nil (old : ℕ) : StreamEvents old [] []
  | cons {old : ℕ} {p : MousePacket} {ps : List MousePacket} {l m : List MousePush}
    (h : PacketEvents old p l)
    (hs : StreamEvents p.buttons ps m) : StreamEvents old (p :: ps) (l ++ m)

def relSum (code : UInt16) (l : List MousePush) : ℤ :=
  ((l.filter fun e ↦ e.type = evRel ∧ e.code = code).map fun e ↦ e.value.toInt).sum

def auxBytes (port : List (Bool × UInt8)) : List UInt8 := (port.filter fun e ↦ e.1).map fun e ↦ e.2

def MouseOp.arrived : MouseOp → List UInt8
  | .arrive true b => [b]
  | _ => []

variable {code : UInt16} {l l' : List MousePush} {m : Mouse} {d : MouseDecoder} {p : MousePacket}
  {ps : List MousePacket} {arrived : List UInt8}

theorem relSum_append (code : UInt16) (l l' : List MousePush) :
    relSum code (l ++ l') = relSum code l + relSum code l' := by
  simp [relSum]

theorem relSum_of_ne (h : ∀ e ∈ l, e.type ≠ evRel) : relSum code l = 0 := by
  have hnil : l.filter (fun e ↦ e.type = evRel ∧ e.code = code) = [] :=
    List.filter_eq_nil_iff.2 fun e he ↦ by simp [h e he]
  rw [relSum, hnil]
  rfl

theorem forall_byte {P : UInt8 → Prop} (h : ∀ n : Fin 256, P (UInt8.ofNat n)) (b : UInt8) :
    P b := by
  have hb := h ⟨b.toNat, b.toNat_lt⟩
  rwa [UInt8.ofNat_toNat] at hb

theorem toInt8_toInt32 (b : UInt8) :
    b.toInt8.toInt32.toInt = (b.toNat : ℤ) - if 128 ≤ b.toNat then 256 else 0 := by
  revert b
  exact forall_byte (by decide +kernel)

theorem neg_toInt8_toInt32 (b : UInt8) :
    (-b.toInt8.toInt32).toInt = -((b.toNat : ℤ) - if 128 ≤ b.toNat then 256 else 0) := by
  revert b
  exact forall_byte (by decide +kernel)

theorem toInt_eq_zero {v : Int32} (h : ¬ v ≠ 0) : v.toInt = 0 := by
  rw [not_not.1 h]
  rfl

theorem relSum_motionEvents (dx dy : Int32) :
    relSum relX (MouseDecoder.motionEvents dx dy) = dx.toInt ∧
      relSum relY (MouseDecoder.motionEvents dx dy) = dy.toInt := by
  unfold MouseDecoder.motionEvents
  split_ifs with hx hy hy
  · simp [relSum, relX, relY]
  · simp [relSum, relX, relY, toInt_eq_zero hy]
  · simp [relSum, relX, relY, toInt_eq_zero hx]
  · simp [relSum, toInt_eq_zero hx, toInt_eq_zero hy]

theorem buttonEvents_type {old new : UInt8} {e : MousePush}
    (h : e ∈ MouseDecoder.buttonEvents old new) : e.type = evKey := by
  obtain ⟨bit, -, hbit⟩ := List.mem_filterMap.1 h
  split_ifs at hbit
  all_goals
    obtain rfl := Option.some.inj hbit
    rfl

theorem motionEvents_type {dx dy : Int32} {e : MousePush}
    (h : e ∈ MouseDecoder.motionEvents dx dy) : e.type = evRel := by
  have hone : ∀ {b : Prop} [Decidable b] {x : MousePush}, e ∈ (if b then [x] else []) → e = x := by
    intro b _ x he
    split_ifs at he
    · exact List.mem_singleton.1 he
    · cases he
  rcases List.mem_append.1 h with h | h
  · rw [hone h]
  · rw [hone h]

theorem buttonEvents_eq (old new : UInt8) :
    MouseDecoder.buttonEvents (old &&& 7) (new &&& 7) = buttonChanges (old.toNat % 8)
    (new.toNat % 8) := by
  have hmask : ∀ b : UInt8, b &&& 7 = UInt8.ofNat (b.toNat % 8) := forall_byte (by decide +kernel)
  have hall : ∀ o n : Fin 8, MouseDecoder.buttonEvents (UInt8.ofNat o) (UInt8.ofNat n) =
      buttonChanges o n := by decide +kernel
  rw [hmask, hmask]
  exact hall ⟨_, Nat.mod_lt _ (by decide)⟩ ⟨_, Nat.mod_lt _ (by decide)⟩

theorem packetDone_spec (hp : p.WellFormed) {old : UInt8} (hold : d.buttons = old &&& 7) :
    ∃ l, d.packetDone p.flags p.x p.y = ⟨[], p.flags &&& 7, d.pushes ++ l⟩ ∧ PacketEvents
      (old.toNat % 8) p l ∧ relSum relX l = (p.x.toNat : ℤ) - (if 128 ≤ p.x.toNat then 256 else 0) ∧
      relSum relY l = -((p.y.toNat : ℤ) - if 128 ≤ p.y.toNat then 256 else 0) := by
  obtain ⟨hmx, hmy⟩ := relSum_motionEvents p.x.toInt8.toInt32 (-p.y.toInt8.toInt32)
  have hkeys : ∀ e ∈ MouseDecoder.buttonEvents d.buttons (p.flags &&& 7), e.type = evKey :=
    fun e he ↦ buttonEvents_type he
  have hsyn : ∀ code, relSum code [syn] = 0 := fun code ↦ relSum_of_ne (by simp [syn, evSyn, evRel])
  have hbuttons : ∀ code, relSum code (MouseDecoder.buttonEvents d.buttons (p.flags &&& 7)) = 0 :=
    fun code ↦
    relSum_of_ne fun e he ↦ by simp [hkeys e he, evKey, evRel]
  refine ⟨_, by rw [MouseDecoder.packetDone, if_neg (not_not.2 hp.inRange)],
    ⟨⟨_, rfl, ?_⟩, ?_⟩, ?_, ?_⟩
  · intro e he
    rcases List.mem_append.1 he with he | he
    · simp [motionEvents_type he, evRel, evSyn]
    · simp [hkeys e he, evKey, evSyn]
  · have hmotion : (MouseDecoder.motionEvents p.x.toInt8.toInt32 (-p.y.toInt8.toInt32)).filter
        (fun e ↦ e.type = evKey) = [] :=
      List.filter_eq_nil_iff.2 fun e he ↦ by simp [motionEvents_type he, evRel, evKey]
    have hall : (MouseDecoder.buttonEvents d.buttons (p.flags &&& 7)).filter
        (fun e ↦ e.type = evKey) =
        MouseDecoder.buttonEvents d.buttons (p.flags &&& 7) := List.filter_eq_self.2 fun e he ↦ by
          simp [hkeys e he]
    have hlast : [syn].filter (fun e ↦ e.type = evKey) = [] := rfl
    rw [List.filter_append, List.filter_append, hmotion, hall, hlast, List.nil_append,
      List.append_nil, hold,
      buttonEvents_eq, MousePacket.buttons]
  · rw [relSum_append, relSum_append, hmx, hbuttons, hsyn, toInt8_toInt32, add_zero, add_zero]
  · rw [relSum_append, relSum_append, hmy, hbuttons, hsyn, neg_toInt8_toInt32, add_zero, add_zero]

theorem foldl_bytes (hp : p.WellFormed) (hd : d.packet = []) :
    p.bytes.foldl MouseDecoder.mouseProcessByte d = d.packetDone p.flags p.x p.y := by
  obtain ⟨packet, buttons, pushes⟩ := d
  obtain rfl : packet = [] := hd
  simp [MousePacket.bytes, MouseDecoder.mouseProcessByte, hp.sync, MouseDecoder.packetDone]

def excess (f : MousePacket → ℤ) (ps : List MousePacket) : ℤ :=
  (ps.countP fun p ↦ 128 ≤ f p) - (ps.countP fun p ↦ f p < -128)

theorem excess_cons (f : MousePacket → ℤ) (p : MousePacket) (ps : List MousePacket) :
    excess f (p :: ps) = excess f ps + (if 128 ≤ f p then 1 else 0) -
      if f p < -128 then 1 else 0 := by
  simp only [excess, List.countP_cons, decide_eq_true_eq]
  split_ifs <;> push_cast <;> ring

theorem low_byte (b : UInt8) (c : Prop) [Decidable c] :
    (b.toNat : ℤ) - (if 128 ≤ b.toNat then 256 else 0) = ((b.toNat : ℤ) - if c then 256 else 0) -
      256 * ((if 128 ≤ (b.toNat : ℤ) - (if c then 256 else 0) then 1 else 0) -
        if (b.toNat : ℤ) - (if c then 256 else 0) < -128 then 1 else 0) := by
  have hb := b.toNat_lt
  split_ifs <;> omega

theorem stream_spec (hps : ∀ p ∈ ps, p.WellFormed) (old : UInt8) (hd : d.packet = [])
    (hold : d.buttons = old &&& 7) :
    ∃ l, ((ps.flatMap MousePacket.bytes).foldl MouseDecoder.mouseProcessByte d).pushes =
      d.pushes ++ l ∧ StreamEvents (old.toNat % 8) ps l ∧
      relSum relX l = (ps.map MousePacket.dx).sum - 256 * excess MousePacket.dx ps ∧
      relSum relY l = -((ps.map MousePacket.dy).sum - 256 * excess MousePacket.dy ps) := by
  induction ps generalizing d old with
  | nil => exact ⟨[], by simp, .nil _, by simp [relSum, excess], by simp [relSum, excess]⟩
  | cons p ps ih =>
    have hp := hps p (.head _)
    obtain ⟨l, hl, hevents, hx, hy⟩ := packetDone_spec hp hold
    have hrest : ∀ q ∈ ps, q.WellFormed := fun q hq ↦ hps q (.tail _ hq)
    obtain ⟨m, hm, hstream, hmx, hmy⟩ :=
      ih (d := d.packetDone p.flags p.x p.y) hrest p.flags (by rw [hl]) (by rw [hl])
    rw [low_byte p.x (p.flags &&& 0x10 ≠ 0)] at hx
    rw [low_byte p.y (p.flags &&& 0x20 ≠ 0)] at hy
    refine ⟨l ++ m, ?_, .cons hevents hstream, ?_, ?_⟩
    · rw [List.flatMap_cons, List.foldl_append, foldl_bytes hp hd, hm, hl, List.append_assoc]
    · rw [relSum_append, hmx, List.map_cons, List.sum_cons, excess_cons, hx, MousePacket.dx]
      ring
    · rw [relSum_append, hmy, List.map_cons, List.sum_cons, excess_cons, hy, MousePacket.dy]
      ring

def Decoded (arrived : List UInt8) (m : Mouse) : Prop :=
  ∃ done, arrived = done ++ auxBytes m.port ∧
    m.decoder = done.foldl MouseDecoder.mouseProcessByte .init

theorem Decoded.drain (h : Decoded arrived m) (n : ℕ) : Decoded arrived (m.drain n) := by
  induction n generalizing m with
  | zero => exact h
  | succ n ih =>
    unfold Mouse.drain
    split
    · next b port hport =>
      obtain ⟨done, harrived, hdone⟩ := h
      refine ih ⟨done ++ [b], ?_, ?_⟩
      · rw [harrived, hport]
        simp [auxBytes]
      · rw [List.foldl_append, ← hdone]
        rfl
    · exact h

theorem auxBytes_keyboardTake (n : ℕ) (port : List (Bool × UInt8)) :
    auxBytes (Mouse.keyboardTake n port) = auxBytes port := by
  induction n generalizing port with
  | zero => rfl
  | succ n ih =>
    unfold Mouse.keyboardTake
    split
    · next hport =>
      obtain ⟨rfl, rfl⟩ := hport
      rw [ih]
      rfl
    · rfl

theorem Decoded.step (h : Decoded arrived m) (op : MouseOp) :
    Decoded (arrived ++ op.arrived) (m.step op) := by
  have hrest : op.arrived = [] → Decoded arrived (m.step op) →
      Decoded (arrived ++ op.arrived) (m.step op) := by
    intro hnil hm
    rwa [hnil, List.append_nil]
  cases op with
  | arrive aux b =>
    obtain ⟨done, harrived, hdone⟩ := h
    refine ⟨done, ?_, hdone⟩
    rw [harrived]
    cases aux <;> simp [MouseOp.arrived, Mouse.step, auxBytes]
  | keyboard n =>
    obtain ⟨done, harrived, hdone⟩ := h
    exact hrest rfl ⟨done, by rw [harrived, Mouse.step, auxBytes_keyboardTake], hdone⟩
  | poll =>
    refine hrest rfl ?_
    simp only [Mouse.step, Mouse.ps2MousePoll]
    split_ifs
    · exact h
    · exact h.drain 8
  | irq =>
    have hcount : Decoded arrived { m with irq12Hits := m.irq12Hits + 1 } := h
    exact hrest rfl (hcount.drain 8)

theorem Decoded.run (h : Decoded arrived m) (ops : List MouseOp) :
    Decoded (arrived ++ ops.flatMap MouseOp.arrived) (m.run ops) := by
  induction ops generalizing arrived m with
  | nil => simpa [Mouse.run] using h
  | cons op ops ih =>
    have hops := ih (h.step op)
    rwa [List.append_assoc] at hops

/-- Every stream of well-formed packets, by any split between the two handlers: the events report
the packets exactly if, on each axis, as many packets go 128 and more in the positive direction as
go more than 128 in the negative one. -/
theorem mouse_decodes_iff (ops : List MouseOp) (ps : List MousePacket)
    (hps : ∀ p ∈ ps, p.WellFormed)
    (harrived : ops.flatMap MouseOp.arrived = ps.flatMap MousePacket.bytes)
    (hempty : auxBytes (Mouse.init.run ops).port = []) :
    (StreamEvents 0 ps (Mouse.init.run ops).decoder.pushes ∧
      relSum relX (Mouse.init.run ops).decoder.pushes = (ps.map MousePacket.dx).sum ∧
      relSum relY (Mouse.init.run ops).decoder.pushes = -(ps.map MousePacket.dy).sum) ↔
    (ps.countP fun p ↦ 128 ≤ p.dx) = (ps.countP fun p ↦ p.dx < -128) ∧
      (ps.countP fun p ↦ 128 ≤ p.dy) = ps.countP fun p ↦ p.dy < -128 := by
  have hinit : Decoded [] Mouse.init := ⟨[], rfl, rfl⟩
  obtain ⟨done, hdone, hdecoder⟩ := hinit.run ops
  rw [List.nil_append, hempty, List.append_nil, harrived] at hdone
  obtain ⟨l, hl, hstream, hx, hy⟩ := stream_spec (d := .init) hps 0 rfl rfl
  rw [hdone, ← hdecoder] at hl
  obtain rfl : (Mouse.init.run ops).decoder.pushes = l := hl
  simp only [excess] at hx hy
  rw [hx, hy]
  constructor
  · rintro ⟨-, hsumx, hsumy⟩
    constructor <;> omega
  · rintro ⟨hcx, hcy⟩
    exact ⟨hstream, by omega, by omega⟩

def sendPacket (p : MousePacket) : List MouseOp :=
  [.arrive true p.flags, .arrive true p.x, .arrive true p.y, .irq]

/-- A click and its release, whose packets the two handlers share; a byte of the keyboard is among
them. -/
def click : List MouseOp :=
  [.arrive true 0x29, .poll, .arrive true 5, .arrive true 253, .arrive true 0x18, .poll,
    .arrive true 251, .irq, .poll,
    .arrive false 30, .arrive true 2, .irq, .keyboard 1, .irq]

def clickPackets : List MousePacket := [⟨0x29, 5, 253⟩, ⟨0x18, 251, 2⟩]

theorem mouse_decodes_click :
    StreamEvents 0 clickPackets (Mouse.init.run click).decoder.pushes ∧
      relSum relX (Mouse.init.run click).decoder.pushes = (clickPackets.map MousePacket.dx).sum ∧
      relSum relY (Mouse.init.run click).decoder.pushes = -(clickPackets.map MousePacket.dy).sum :=
  (mouse_decodes_iff click clickPackets
    (by simpa [clickPackets] using ⟨⟨by decide, by decide⟩, ⟨by decide, by decide⟩⟩) rfl rfl).2
    ⟨by decide, by decide⟩

/-- The sign of a displacement of 200 is taken from its low byte. -/
theorem not_mouse_decodes :
    MousePacket.WellFormed ⟨8, 200, 0⟩ ∧ auxBytes (Mouse.init.run (sendPacket ⟨8, 200, 0⟩)).port =
      [] ∧ (sendPacket ⟨8, 200, 0⟩).flatMap MouseOp.arrived = MousePacket.bytes ⟨8, 200, 0⟩ ∧
      relSum relX (Mouse.init.run (sendPacket ⟨8, 200, 0⟩)).decoder.pushes = -56 ∧
        MousePacket.dx ⟨8, 200, 0⟩ = 200 :=
  ⟨⟨by decide, by decide⟩, rfl, rfl, by decide, by decide⟩

end YabroOS.Input
