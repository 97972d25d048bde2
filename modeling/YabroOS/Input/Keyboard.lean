import YabroOS.Lib.Instances
import Mathlib.Data.List.Basic
import Mathlib.Data.List.Count
import Mathlib.Logic.Function.Basic
import Mathlib.Algebra.Ring.Parity

namespace YabroOS.Input

open Function

/-- `keyboard_key_state` and the events that were put into the queue of event0: type, code and
value. -/
structure Keys where
  down : ℕ → Bool
  events : List (ℕ × ℕ × ℤ)

namespace Keys

variable (k : Keys)

def isDown (code : ℕ) : Bool := code < 1024 && k.down code

def push (type code : ℕ) (value : ℤ) : Keys where
  down := if type = 1 ∧ code < 1024 then update k.down code (value ≠ 0) else k.down
  events := k.events ++ [(type, code, value)]

def emit (code : ℕ) (down : Bool) : Keys :=
  (k.push 1 code (if down then if k.isDown code then 2 else 1 else 0)).push 0 0 0

def values (code : ℕ) : List ℤ :=
  k.events.filterMap (fun e ↦ if e.1 = 1 ∧ e.2.1 = code then some e.2.2 else none)

variable {k} {code c : ℕ} {d : Bool}

theorem down_push_syn : (k.push 0 0 0).down = k.down := by
  have h : ¬((0 : ℕ) = 1 ∧ (0 : ℕ) < 1024) := by decide
  simp only [push, if_neg h]

theorem down_emit (hc : code < 1024) : (k.emit code d).down = update k.down code d := by
  rw [emit, down_push_syn]
  cases d
  · simp [push, hc]
  · cases h : k.isDown code <;> simp [push, hc]

theorem events_emit (hc : code < 1024) :
    (k.emit code d).events =
      k.events ++ [(1, code, if d then if k.down code then 2 else 1 else 0), (0, 0, 0)] := by
  simp [emit, push, isDown, hc]

theorem values_emit (hc : code < 1024) : (k.emit code d).values c =
    k.values c ++ if code = c then [if d then if k.down code then 2 else 1 else 0] else [] := by
  rw [values, events_emit hc, List.filterMap_append]
  by_cases h : code = c <;> simp [values, h]

end Keys

/-- The values of a key that was up or down before them and is after them. -/
inductive Follows : Bool → List ℤ → Bool → Prop
  | nil (a : Bool) : Follows a [] a
  | press {l : List ℤ} {b : Bool} : Follows true l b → Follows false (1 :: l) b
  | again {l : List ℤ} {b : Bool} : Follows true l b → Follows true (2 :: l) b
  | release {l : List ℤ} {a b : Bool} : Follows false l b → Follows a (0 :: l) b

theorem Follows.snoc {a b d : Bool} {l : List ℤ} (h : Follows a l b) :
    Follows a (l ++ [if d then if b then 2 else 1 else 0]) d := by
  induction h with
  | nil a =>
    cases d
    · exact .release (.nil false)
    · cases a
      · exact .press (.nil true)
      · exact .again (.nil true)
  | press _ ih => exact .press ih
  | again _ ih => exact .again ih
  | release _ ih => exact .release ih

/-- The events of every key follow its state, and each is behind a report of its own. -/
structure Keys.Sound (k : Keys) : Prop where
  follows (code : ℕ) : Follows false (k.values code) (k.down code)
  reports : ∃ l : List (ℕ × ℤ), k.events = l.flatMap (fun p ↦ [(1, p.1, p.2), (0, 0, 0)])

theorem Keys.Sound.emit {k : Keys} {code : ℕ} {d : Bool} (h : k.Sound) (hc : code < 1024) :
    (k.emit code d).Sound where
  follows c := by
    rw [values_emit hc, down_emit hc]
    by_cases hcc : code = c
    · subst hcc
      rw [if_pos rfl, update_self]
      exact (h.follows code).snoc
    · rw [if_neg hcc, update_of_ne (Ne.symm hcc), List.append_nil]
      exact h.follows c
  reports := by
    obtain ⟨l, hl⟩ := h.reports
    exact ⟨l ++ [(code, _)], by rw [events_emit hc, hl, List.flatMap_append, List.flatMap_singleton]⟩

/-- What the driver reads of the console: whether it is shown, and the two process groups. -/
structure FgConsole where
  active : Bool
  fgPgrp : ℤ
  shellPgrp : ℤ

def FgConsole.foregroundJob (con : FgConsole) : Bool :=
  0 < con.fgPgrp ∧ 0 < con.shellPgrp ∧ con.fgPgrp ≠ con.shellPgrp

/-- The statics of the keyboard. `queue` is what `key_queue` holds between its head and its tail;
`interrupts` is not in the source: it counts the calls of `console_tty_pgrp_signal`. -/
structure Keyboard where
  keys : Keys
  e0Prefix : Bool
  shiftPressed : Bool
  shiftLeftPressed : Bool
  shiftRightPressed : Bool
  capsLock : Bool
  ctrlLeftPressed : Bool
  ctrlRightPressed : Bool
  queue : List UInt8
  interrupts : ℕ

def Keyboard.init : Keyboard :=
  ⟨⟨fun _ ↦ false, []⟩, false, false, false, false, false, false, false, [], 0⟩

def e0Code : ℕ → Option ℕ
  | 0x1C => some 96 | 0x1D => some 97 | 0x35 => some 98 | 0x38 => some 100 | 0x47 =>
    some 102 | 0x48 => some 103
  | 0x49 => some 104 | 0x4B => some 105 | 0x4D => some 106 | 0x4F => some 107 | 0x50 =>
    some 108 | 0x51 => some 109
  | 0x52 => some 110 | 0x53 => some 111 | 0x5B => some 125 | 0x5C => some 126 | 0x5D =>
    some 127 | _ => none

/-- Up, down, left, right, home, end, delete, page up, page down and insert, as the queue holds
them. -/
def ttyKey : ℕ → Option UInt8
  | 0x48 => some 0x80 | 0x50 => some 0x81 | 0x4B => some 0x82 | 0x4D => some 0x83 | 0x47 => some 0x85
  | 0x4F => some 0x86 | 0x53 => some 0x87 | 0x49 => some 0x88 | 0x51 => some 0x89 | 0x52 =>
    some 0x8A | _ => none

def letterOf (sc : ℕ) : Option Char :=
  if 0x10 ≤ sc ∧ sc ≤ 0x19 then "qwertyuiop".toList[sc - 0x10]?
  else if 0x1E ≤ sc ∧ sc ≤ 0x26 then "asdfghjkl".toList[sc - 0x1E]?
  else if 0x2C ≤ sc ∧ sc ≤ 0x32 then "zxcvbnm".toList[sc - 0x2C]?
  else none

namespace Keyboard

variable (k : Keyboard) (con : FgConsole) (sc : UInt8)

def enqueue (key : UInt8) : Keyboard :=
  if k.queue.length < 127 then { k with queue := k.queue ++ [key] } else k

def ctrl : Bool := k.ctrlLeftPressed || k.ctrlRightPressed

def processExtended : Keyboard :=
  let rel := decide (0x80 ≤ sc)
  let b := sc.toNat % 128
  let k := { k with
    e0Prefix := false, ctrlRightPressed := if b = 0x1D then !rel else k.ctrlRightPressed }
  match e0Code b with
  | none => k
  | some kc =>
    let k := { k with keys := k.keys.emit kc !rel }
    if rel then k
    else
      match ttyKey b with
      | none => k
      | some key => k.enqueue key

def queuedKey : UInt8 :=
  if k.ctrl ∧ con.active ∧ con.foregroundJob then
    match letterOf sc.toNat with
    | some letter => UInt8.ofNat (0xA0 + letter.toNat - 'a'.toNat)
    | none => sc
  else sc

def processTyped : Keyboard :=
  let k := { k with keys := k.keys.emit sc.toNat true }
  if k.ctrl ∧ sc = 0x2E then
    if con.active = false then k
    else if con.foregroundJob then { k with interrupts := k.interrupts + 1 }
    else k.enqueue 0x84
  else k.enqueue (k.queuedKey con sc)

def keyboardProcessScancode : Keyboard :=
  if sc = 0xE0 then { k with e0Prefix := true }
  else if k.e0Prefix then k.processExtended sc
  else if sc = 0x1D then { k with ctrlLeftPressed := true, keys := k.keys.emit 29 true }
  else if sc = 0x9D then { k with ctrlLeftPressed := false, keys := k.keys.emit 29 false }
  else if sc = 0x2A then
    { k with keys := k.keys.emit 42 true, shiftLeftPressed := true, shiftPressed := true }
  else if sc = 0x36 then
    { k with keys := k.keys.emit 54 true, shiftRightPressed := true, shiftPressed := true }
  else if sc = 0xAA then
    { k with
      keys := k.keys.emit 42 false, shiftLeftPressed := false, shiftPressed := k.shiftRightPressed }
  else if sc = 0xB6 then
    { k with
      keys := k.keys.emit 54 false, shiftRightPressed := false, shiftPressed := k.shiftLeftPressed }
  else if sc = 0x3A then
    { k with
      capsLock := if k.keys.isDown 58 then k.capsLock else !k.capsLock, keys := k.keys.emit 58 true }
  else if 0x80 ≤ sc then
    if sc.toNat % 128 ≠ 0x2A ∧ sc.toNat % 128 ≠ 0x36 then
      { k with keys := k.keys.emit (sc.toNat % 128) false } else k
  else if sc = 0 then k
  else k.processTyped con sc

def run (l : List (FgConsole × UInt8)) : Keyboard :=
  l.foldl (fun k p ↦ k.keyboardProcessScancode p.1 p.2) k

theorem e0Code_lt {b kc : ℕ} (h : e0Code b = some kc) : 96 ≤ kc ∧ kc < 128 := by
  unfold e0Code at h
  split at h <;> first | (cases h; omega) | cases h

theorem enqueue_eq (key : UInt8) : ∃ q, k.enqueue key = { k with queue := q } := by
  unfold enqueue
  split_ifs
  · exact ⟨_, rfl⟩
  · exact ⟨k.queue, rfl⟩

theorem processTyped_eq : ∃ q n, k.processTyped con sc =
    { k with keys := k.keys.emit sc.toNat true, queue := q, interrupts := n } := by
  have hen (key : UInt8) : ∃ q n, ({ k with keys := k.keys.emit sc.toNat true } : Keyboard).enqueue
      key = { k with keys := k.keys.emit sc.toNat true, queue := q, interrupts := n } := by
    obtain ⟨q, hq⟩ := enqueue_eq { k with keys := k.keys.emit sc.toNat true } key
    exact ⟨q, _, hq⟩
  unfold processTyped
  dsimp only
  split_ifs
  · exact ⟨_, _, rfl⟩
  · exact ⟨_, _, rfl⟩
  · exact hen _
  · exact hen _

theorem processExtended_eq : ∃ q, k.processExtended sc =
    { k with
      e0Prefix := false
      ctrlRightPressed := if sc.toNat % 128 = 0x1D then !decide (0x80 ≤ sc) else k.ctrlRightPressed
      keys := (e0Code (sc.toNat % 128)).elim k.keys (fun kc ↦ k.keys.emit kc !decide (0x80 ≤ sc))
      queue := q } := by
  unfold processExtended
  dsimp only
  generalize e0Code (sc.toNat % 128) = code
  cases code with
  | none => exact ⟨_, rfl⟩
  | some kc =>
    cases hrel : decide (0x80 ≤ sc)
    · cases ttyKey (sc.toNat % 128) with
      | none => exact ⟨_, rfl⟩
      | some key => exact enqueue_eq _ key
    · exact ⟨_, rfl⟩

variable {k con sc} {d : Bool}

structure Agrees (k : Keyboard) : Prop where
  sound : k.keys.Sound
  left : k.shiftLeftPressed = k.keys.down 42
  right : k.shiftRightPressed = k.keys.down 54
  shift : k.shiftPressed = (k.shiftLeftPressed || k.shiftRightPressed)
  ctrl : k.ctrlLeftPressed = k.keys.down 29
  caps : k.capsLock = decide ((k.keys.values 58).count 1 % 2 = 1)

theorem Agrees.init : Keyboard.init.Agrees where
  sound := ⟨fun _ ↦ .nil false, [], rfl⟩
  left := rfl
  right := rfl
  shift := rfl
  ctrl := rfl
  caps := rfl

theorem count_emit {keys : Keys} {code : ℕ} (hc : code < 1024) :
    ((keys.emit code d).values 58).count 1 =
      (keys.values 58).count 1 + if code = 58 ∧ d = true ∧ keys.down code = false then 1 else 0 := by
  rw [Keys.values_emit hc, List.count_append]
  by_cases h : code = 58
  · cases d <;> cases hd : keys.down code <;> simp [h]
  · simp [h]

theorem Agrees.of_emit {k' : Keyboard} (h : k.Agrees) (code : ℕ) (hc : code < 1024)
    (hk : k'.keys = k.keys.emit code d) (hl : k'.shiftLeftPressed = update k.keys.down code d 42)
    (hr : k'.shiftRightPressed = update k.keys.down code d 54)
    (hs : k'.shiftPressed = (k'.shiftLeftPressed || k'.shiftRightPressed))
    (hctrl : k'.ctrlLeftPressed = update k.keys.down code d 29)
    (hcaps : k'.capsLock = if code = 58 ∧ d = true ∧ k.keys.down code = false then !k.capsLock
      else k.capsLock) :
    k'.Agrees where
  sound := hk ▸ h.sound.emit hc
  left := by rw [hl, hk, Keys.down_emit hc]
  right := by rw [hr, hk, Keys.down_emit hc]
  shift := hs
  ctrl := by rw [hctrl, hk, Keys.down_emit hc]
  caps := by
    rw [hcaps, hk, count_emit hc, h.caps]
    split_ifs
    · rw [← decide_not]
      exact decide_eq_decide.2 (by omega)
    · rfl

theorem Agrees.emit {code : ℕ} {e c : Bool} {q : List UInt8} {n : ℕ} (h : k.Agrees)
    (hc : code < 1024) (h29 : code ≠ 29) (h42 : code ≠ 42) (h54 : code ≠ 54)
    (h58 : code = 58 → d = false) :
    Agrees { k with
      keys := k.keys.emit code d, e0Prefix := e, ctrlRightPressed := c, queue := q,
        interrupts := n } := by
  apply h.of_emit code hc rfl
  · exact h.left.trans (update_of_ne h42.symm _ _).symm
  · exact h.right.trans (update_of_ne h54.symm _ _).symm
  · exact h.shift
  · exact h.ctrl.trans (update_of_ne h29.symm _ _).symm
  · refine (if_neg ?_).symm
    intro hp
    cases (h58 hp.1).symm.trans hp.2.1

theorem Agrees.processExtended (h : k.Agrees) : (k.processExtended sc).Agrees := by
  obtain ⟨q, hq⟩ := processExtended_eq k sc
  rw [hq]
  cases hcode : e0Code (sc.toNat % 128) with
  | none => exact ⟨h.sound, h.left, h.right, h.shift, h.ctrl, h.caps⟩
  | some code =>
    have hlt := e0Code_lt hcode
    exact h.emit (by omega) (by omega) (by omega) (by omega) (by omega)

theorem Agrees.ctrlKey (h : k.Agrees) :
    Agrees { k with ctrlLeftPressed := d, keys := k.keys.emit 29 d } := by
  apply h.of_emit 29 (by decide) rfl
  · exact h.left
  · exact h.right
  · exact h.shift
  · exact (update_self _ _ k.keys.down).symm
  · rfl

theorem Agrees.shiftLeft {s : Bool} (h : k.Agrees) (hs : s = (d || k.shiftRightPressed)) :
    Agrees { k with keys := k.keys.emit 42 d, shiftLeftPressed := d, shiftPressed := s } := by
  apply h.of_emit 42 (by decide) rfl
  · exact (update_self _ _ k.keys.down).symm
  · exact h.right
  · exact hs
  · exact h.ctrl
  · rfl

theorem Agrees.shiftRight {s : Bool} (h : k.Agrees) (hs : s = (k.shiftLeftPressed || d)) :
    Agrees { k with keys := k.keys.emit 54 d, shiftRightPressed := d, shiftPressed := s } := by
  apply h.of_emit 54 (by decide) rfl
  · exact h.left
  · exact (update_self _ _ k.keys.down).symm
  · exact hs
  · exact h.ctrl
  · rfl

theorem Agrees.capsKey (h : k.Agrees) : Agrees
    { k with
      capsLock := if k.keys.isDown 58 then k.capsLock else !k.capsLock, keys := k.keys.emit 58 true } := by
  apply h.of_emit 58 (by decide) rfl
  · exact h.left
  · exact h.right
  · exact h.shift
  · exact h.ctrl
  · cases hd : k.keys.down 58 <;> simp [Keys.isDown, hd]

theorem Agrees.keyboardProcessScancode (h : k.Agrees) :
    (k.keyboardProcessScancode con sc).Agrees := by
  unfold Keyboard.keyboardProcessScancode
  refine iteInduction (fun _ ↦ ⟨h.sound, h.left, h.right, h.shift, h.ctrl, h.caps⟩) (fun _ ↦ ?_)
  refine iteInduction (fun _ ↦ h.processExtended) (fun _ ↦ ?_)
  refine iteInduction (fun _ ↦ h.ctrlKey) (fun h1d ↦ ?_)
  refine iteInduction (fun _ ↦ h.ctrlKey) (fun h9d ↦ ?_)
  refine iteInduction (fun _ ↦ h.shiftLeft (Bool.true_or _).symm) (fun h2a ↦ ?_)
  refine iteInduction (fun _ ↦ h.shiftRight (Bool.or_true _).symm) (fun h36 ↦ ?_)
  refine iteInduction (fun _ ↦ h.shiftLeft (Bool.false_or _).symm) (fun _ ↦ ?_)
  refine iteInduction (fun _ ↦ h.shiftRight (Bool.or_false _).symm) (fun _ ↦ ?_)
  refine iteInduction (fun _ ↦ h.capsKey) (fun h3a ↦ ?_)
  have hsc (n : ℕ) (hn : n < 256) (hne : sc ≠ UInt8.ofNat n) : sc.toNat ≠ n := by
    intro heq
    exact hne (heq ▸ (UInt8.ofNat_toNat).symm)
  have h29 := hsc 0x1D (by decide) h1d
  have h29r := hsc 0x9D (by decide) h9d
  refine iteInduction (fun hrel ↦ iteInduction (fun hb ↦ ?_) (fun _ ↦ h))
    (fun _ ↦ iteInduction (fun _ ↦ h) (fun _ ↦ ?_))
  · have hlt := sc.toNat_lt
    have hle : 128 ≤ sc.toNat := hrel
    exact h.emit (by omega) (by omega) hb.1 hb.2 (fun _ ↦ rfl)
  · obtain ⟨q, n, hq⟩ := processTyped_eq k con sc
    rw [hq]
    have hlt := sc.toNat_lt
    exact h.emit (by omega) h29 (hsc 0x2A (by decide) h2a) (hsc 0x36 (by decide) h36)
      (fun h58 ↦ absurd h58 (hsc 0x3A (by decide) h3a))

theorem Agrees.run (h : k.Agrees) (l : List (FgConsole × UInt8)) : (k.run l).Agrees :=
  List.foldlRecOn l _ h (fun _ hk _ _ ↦ hk.keyboardProcessScancode)

/-- Whatever scan codes come, the presses, repeats and releases of every key take turns, each with a
report behind it. -/
theorem run_events (l : List (FgConsole × UInt8)) (code : ℕ) :
    Follows false ((init.run l).keys.values code) ((init.run l).keys.down code) ∧
      ∃ m : List (ℕ × ℤ), (init.run l).keys.events =
        m.flatMap (fun p ↦ [(1, p.1, p.2), (0, 0, 0)]) :=
  have h := (Agrees.init.run l).sound
  ⟨h.follows code, h.reports⟩

/-- The modifiers that the console reads agree with the events of their keys, and Caps Lock is on
after an odd number of presses. -/
theorem run_modifiers (l : List (FgConsole × UInt8)) :
    (init.run l).shiftPressed = ((init.run l).keys.down 42 || (init.run l).keys.down 54) ∧
      (init.run l).ctrlLeftPressed = (init.run l).keys.down 29 ∧
      ((init.run l).capsLock = true ↔ Odd (((init.run l).keys.values 58).count 1)) := by
  have h := Agrees.init.run l
  refine ⟨?_, h.ctrl, ?_⟩
  · rw [h.shift, h.left, h.right]
  · rw [h.caps, decide_eq_true_iff, Nat.odd_iff]

end Keyboard

end YabroOS.Input
