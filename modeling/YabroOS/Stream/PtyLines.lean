import YabroOS.Stream.Pty

namespace YabroOS.Stream

open Lib Termios

inductive Key
  | dropped
  | signal
  | char (c : UInt8)

def keyOf (t : Termios) (c : UInt8) : Key :=
  match t.mapInput c with
  | none => .dropped
  | some c =>
    if t.iflagHas ixon ∧ (t.isCc vstop c ∨ t.isCc vstart c) then .dropped
    else if t.lflagHas isig ∧ t.signalOf c ≠ none then .signal
    else .char c

/-- The lines of a terminal: those that are complete and not read in full, the one that is typed,
and all that have ever been completed. -/
structure Cooked where
  lines : List (List UInt8)
  line : List UInt8
  completed : List (List UInt8)

variable {t : Termios} {p : Pty} {k : Cooked} {l m src : List UInt8} {c e : UInt8} {n : ℕ}

namespace Cooked

def start : Cooked := ⟨[], [], []⟩

def flat (k : Cooked) : List UInt8 := k.lines.flatten ++ k.line

def flush (k : Cooked) : Cooked := ⟨[], [], k.completed⟩

def edit (t : Termios) (k : Cooked) (c : UInt8) : Cooked × Bool :=
  if t.isCc verase c then ({ k with line := k.line.dropLast }, true)
  else if t.isCc vkill c then ({ k with line := [] }, true)
  else if ptyCap ≤ k.flat.length then (k, false)
  else if Pty.endsLine t c then
    (⟨k.lines ++ [k.line ++ [c]], [], k.completed ++ [k.line ++ [c]]⟩, true)
  else ({ k with line := k.line ++ [c] }, true)

def key (t : Termios) (k : Cooked) (c : UInt8) : Cooked × Bool :=
  match keyOf t c with
  | .dropped => (k, true)
  | .signal => (if t.lflagHas noflsh then k else k.flush, true)
  | .char c => k.edit t c

def read (n : ℕ) (k : Cooked) : Cooked :=
  match k.lines with
  | [] => k
  | l :: lines => { k with lines := if l.length ≤ n then lines else l.drop n :: lines }

def step (t : Termios) (k : Cooked) : PtyCall → Cooked
  | .masterWrite src fault => (consume (key t) k (fetched chunkSize fault src.length 0 src)).1
  | .slaveRead count _ _ _ => if count = 0 then k else k.read (chunk count)
  | .flush input _ => if input then k.flush else k
  | _ => k

def run (t : Termios) (k : Cooked) (calls : List PtyCall) : Cooked := calls.foldl (step t) k

end Cooked

/-- A complete line has one character that ends it, and this is its last. -/
def Complete (t : Termios) (l : List UInt8) : Prop :=
  ∃ body e, l = body ++ [e] ∧ Pty.endsLine t e = true ∧ ∀ b ∈ body, Pty.endsLine t b = false

structure Cooked.Formed (t : Termios) (k : Cooked) : Prop where
  lines : ∀ l ∈ k.lines, Complete t l
  line : ∀ b ∈ k.line, Pty.endsLine t b = false

/-- The lines to be read are the last of those that were completed, in the same order; the first may
have been read in part. -/
def Cooked.InOrder (k : Cooked) : Prop :=
  ∃ gone part, k.completed = gone ++ k.lines.modifyHead (part ++ ·)

namespace Cooked

theorem step_invariant {P : Cooked → Prop} (hkey : ∀ k c, P k → P (k.key t c).1)
    (hread : ∀ k n, P k → P (k.read n)) (hflush : ∀ k, P k → P k.flush) (h : P k) (call : PtyCall) :
    P (k.step t call) := by
  cases call with
  | masterWrite src fault => exact consume_invariant (fun k c _ h ↦ hkey k c h) h
  | slaveRead count nonblock other copied =>
    show P (if count = 0 then k else k.read (chunk count))
    split_ifs
    · exact h
    · exact hread k _ h
  | flush input output =>
    cases input with
    | true => exact hflush k h
    | false => exact h
  | slaveWrite => exact h
  | masterRead => exact h
  | xonc => exact h
  | setAttr => exact h

theorem formed_start : start.Formed t := ⟨List.forall_mem_nil _, List.forall_mem_nil _⟩

theorem Formed.flush (_ : k.Formed t) : k.flush.Formed t :=
  ⟨List.forall_mem_nil _, List.forall_mem_nil _⟩

theorem Formed.edit (h : k.Formed t) (c : UInt8) : (k.edit t c).1.Formed t := by
  unfold Cooked.edit
  split_ifs with herase hkill hfull hend
  · exact ⟨h.lines, fun b hb ↦ h.line b (List.mem_of_mem_dropLast hb)⟩
  · exact ⟨h.lines, List.forall_mem_nil _⟩
  · exact h
  · refine ⟨fun l hl ↦ ?_, List.forall_mem_nil _⟩
    rcases List.mem_append.1 hl with hl | hl
    · exact h.lines l hl
    · exact ⟨k.line, c, List.mem_singleton.1 hl, hend, h.line⟩
  · refine ⟨h.lines, fun b hb ↦ ?_⟩
    rcases List.mem_append.1 hb with hb | hb
    · exact h.line b hb
    · rw [List.mem_singleton.1 hb]
      exact Bool.not_eq_true _ ▸ hend

theorem Formed.key (h : k.Formed t) (c : UInt8) : (k.key t c).1.Formed t := by
  unfold Cooked.key
  cases keyOf t c with
  | dropped => exact h
  | signal =>
    cases t.lflagHas noflsh with
    | true => exact h
    | false => exact h.flush
  | char c => exact h.edit c

theorem Complete.drop (h : Complete t l) (hn : n < l.length) : Complete t (l.drop n) := by
  obtain ⟨body, e, rfl, he, hbody⟩ := h
  rw [List.length_append, List.length_singleton] at hn
  exact ⟨body.drop n, e, List.drop_append_of_le_length (Nat.le_of_lt_succ hn), he,
    fun b hb ↦ hbody b (List.mem_of_mem_drop hb)⟩

theorem Formed.read (h : k.Formed t) (n : ℕ) : (k.read n).Formed t := by
  obtain ⟨lines, line, completed⟩ := k
  cases lines with
  | nil => exact h
  | cons l lines =>
    have hrest := (List.forall_mem_cons.1 h.lines).2
    refine ⟨?_, h.line⟩
    show ∀ m ∈ if l.length ≤ n then lines else l.drop n :: lines, Complete t m
    split_ifs with hle
    · exact hrest
    · exact List.forall_mem_cons.2
        ⟨Complete.drop (List.forall_mem_cons.1 h.lines).1 (not_le.1 hle), hrest⟩

theorem Formed.step (h : k.Formed t) (call : PtyCall) : (k.step t call).Formed t :=
  step_invariant (fun _ c h ↦ h.key c) (fun _ n h ↦ h.read n) (fun _ h ↦ h.flush) h call

theorem inOrder_start : start.InOrder := ⟨[], [], rfl⟩

theorem InOrder.flush (_ : k.InOrder) : k.flush.InOrder :=
  ⟨k.completed, [], (List.append_nil _).symm⟩

theorem InOrder.edit (h : k.InOrder) (c : UInt8) : (k.edit t c).1.InOrder := by
  unfold Cooked.edit
  split_ifs
  · exact h
  · exact h
  · exact h
  · obtain ⟨lines, line, completed⟩ := k
    obtain ⟨gone, part, hsame⟩ := h
    change completed = gone ++ lines.modifyHead (part ++ ·) at hsame
    cases lines with
    | nil => exact ⟨gone, [], by rw [hsame]; simp⟩
    | cons l lines => exact ⟨gone, part, by rw [hsame]; simp⟩
  · exact h

theorem InOrder.key (h : k.InOrder) (c : UInt8) : (k.key t c).1.InOrder := by
  unfold Cooked.key
  cases keyOf t c with
  | dropped => exact h
  | signal =>
    cases t.lflagHas noflsh with
    | true => exact h
    | false => exact h.flush
  | char c => exact h.edit c

theorem InOrder.read (h : k.InOrder) (n : ℕ) : (k.read n).InOrder := by
  obtain ⟨lines, line, completed⟩ := k
  cases lines with
  | nil => exact h
  | cons l lines =>
    obtain ⟨gone, part, hsame⟩ := h
    change completed = gone ++ (part ++ l) :: lines at hsame
    show ∃ gone part, completed = gone ++ (if l.length ≤ n then lines
      else l.drop n :: lines).modifyHead (part ++ ·)
    split_ifs with hle
    · refine ⟨gone ++ [part ++ l], [], ?_⟩
      rw [hsame]
      cases lines <;> simp
    · refine ⟨gone, part ++ l.take n, ?_⟩
      rw [hsame]
      simp

theorem InOrder.step (h : k.InOrder) (call : PtyCall) : (k.step t call).InOrder :=
  step_invariant (fun _ c h ↦ h.key c) (fun _ n h ↦ h.read n) (fun _ h ↦ h.flush) h call

end Cooked

def editFlat (t : Termios) (l : List UInt8) (c : UInt8) : List UInt8 × Bool :=
  if t.isCc verase c then (l.dropLast, true)
  else if t.isCc vkill c then ([], true)
  else if ptyCap ≤ l.length then (l, false)
  else (l ++ [c], true)

def feedFlat (t : Termios) (l : List UInt8) (c : UInt8) : List UInt8 × Bool :=
  match keyOf t c with
  | .dropped => (l, true)
  | .signal => (if t.lflagHas noflsh then l else [], true)
  | .char c => editFlat t l c

/-- A terminal that is open on both sides, with the given characters in its canonical buffer. -/
structure Front (t : Termios) (l : List UInt8) (p : Pty) : Prop where
  canon : p.canon = l
  termios : p.termios = t
  masterOpen : p.masterOpen = true
  slaveOpen : p.slaveOpen = true

theorem Front.congr {q : Pty} (h : Front t l p) (hcanon : q.canon = m)
    (htermios : q.termios = p.termios) (hmaster : q.masterOpen = p.masterOpen)
    (hslave : q.slaveOpen = p.slaveOpen) : Front t m q :=
  ⟨hcanon, htermios.trans h.termios, hmaster.trans h.masterOpen, hslave.trans h.slaveOpen⟩

theorem Front.outputByte (h : Front t l p) (c : UInt8) : Front t l (p.outputByte c).1 := by
  unfold Pty.outputByte Pty.outputDone
  split_ifs <;> exact h.congr h.canon rfl rfl rfl

theorem Front.outputWrite (h : Front t l p) (src : List UInt8) : Front t l (p.outputWrite src).1 :=
  consume_invariant (fun _ c _ h ↦ h.outputByte c) h

theorem Front.echoChar (h : Front t l p) (c : UInt8) : Front t l (p.echoChar c) := by
  unfold Pty.echoChar
  split_ifs <;> first
    | exact h
    | exact h.outputWrite _

theorem Front.flushInput (h : Front t l p) : Front t [] p.flushInput := h.congr rfl rfl rfl rfl

theorem Front.flushOutput (h : Front t l p) : Front t l p.flushOutput := h.congr h.canon rfl rfl rfl

theorem Front.stopped (h : Front t l p) (b : Bool) :
    Front t l { p with outputStopped := b } := h.congr h.canon rfl rfl rfl

theorem Front.rewrite (h : Front t l p) (m : List UInt8) :
    Front t m { p with canon := m } := h.congr rfl rfl rfl rfl

theorem Front.sendControl (h : Front t l p) (c : UInt8) : Front t l (p.sendControl c).1 := by
  unfold Pty.sendControl
  by_cases hc : c = 0
  · rwa [if_pos hc]
  · rw [if_neg hc]
    exact h.outputWrite [c]

theorem Front.xonc (h : Front t l p) (action : ℕ) : Front t l (p.xonc action).1 := by
  unfold Pty.xonc
  split_ifs
  · exact h.stopped true
  · exact h.stopped false
  · exact h.sendControl _
  · exact h.sendControl _
  · exact h

theorem Front.signalFlush (h : Front t l p) :
    Front t (if t.lflagHas noflsh then l else []) p.signalFlush := by
  unfold Pty.signalFlush
  rw [h.termios]
  split_ifs
  · exact h
  · exact h.flushInput.flushOutput.stopped false

theorem Front.signalByte (h : Front t l p) (c : UInt8) :
    Front t (if t.lflagHas noflsh then l else []) (p.signalByte c) := by
  have hecho := h.signalFlush.echoChar c
  unfold Pty.signalByte
  by_cases hctl : (p.signalFlush.echoChar c).termios.lflagHas echo ∧
    (p.signalFlush.echoChar c).termios.lflagHas echoctl
  · exact (if_pos hctl) ▸ hecho.outputWrite [10]
  · exact (if_neg hctl) ▸ hecho

theorem Front.eraseByte (h : Front t l p) (c : UInt8) : Front t l.dropLast (p.eraseByte c) := by
  have hcut : Front t l.dropLast { p with canon := p.canon.dropLast } :=
    h.canon ▸ h.rewrite p.canon.dropLast
  unfold Pty.eraseByte
  by_cases hnil : p.canon = []
  · have hl : l.dropLast = p.canon := by rw [← h.canon, hnil]; rfl
    rw [if_neg (not_not.2 hnil), hl]
    have hsame := h.congr (m := p.canon) rfl rfl rfl rfl
    split_ifs
    · exact hsame.echoChar c
    · exact hsame
  · rw [if_pos hnil]
    dsimp only
    split_ifs
    · exact hcut.outputWrite _
    · exact hcut.echoChar c
    · exact hcut

theorem Front.killByte (h : Front t l p) (c : UInt8) : Front t [] (p.killByte c) := by
  have hcut := h.rewrite []
  unfold Pty.killByte
  dsimp only
  split_ifs
  · exact hcut.outputWrite _
  · exact hcut.echoChar c
  · exact hcut

theorem Front.canonByte (h : Front t l p) (c : UInt8) :
    Front t (editFlat t l c).1 (p.canonByte c).1 ∧ (p.canonByte c).2 = (editFlat t l c).2 := by
  obtain ⟨rfl, rfl⟩ : t = p.termios ∧ l = p.canon := ⟨h.termios.symm, h.canon.symm⟩
  unfold Pty.canonByte editFlat
  split_ifs
  · exact ⟨h.eraseByte c, rfl⟩
  · exact ⟨h.killByte c, rfl⟩
  · exact ⟨h, rfl⟩
  · exact ⟨h.rewrite _, rfl⟩
  · exact ⟨(h.rewrite _).echoChar c, rfl⟩

def inputFlat (t : Termios) (l : List UInt8) (c : UInt8) : List UInt8 × Bool :=
  if t.lflagHas isig ∧ t.signalOf c ≠ none then (if t.lflagHas noflsh then l else [], true)
  else editFlat t l c

theorem Front.inputByte (h : Front t l p) (hcanon : t.lflagHas PtyState.icanon = true) (c : UInt8) :
    Front t (inputFlat t l c).1 (p.inputByte c).1 ∧ (p.inputByte c).2 = (inputFlat t l c).2 := by
  unfold Pty.inputByte inputFlat
  rw [h.termios, if_pos hcanon]
  by_cases hsig : t.lflagHas isig ∧ t.signalOf c ≠ none
  · rw [if_pos hsig, if_pos hsig]
    exact ⟨h.signalByte c, rfl⟩
  · rw [if_neg hsig, if_neg hsig]
    exact h.canonByte c

theorem feedFlat_some (hmap : t.mapInput c = some e)
    (hflow : ¬ (t.iflagHas ixon ∧ (t.isCc vstop e ∨ t.isCc vstart e))) :
    feedFlat t l c = inputFlat t l e := by
  unfold feedFlat keyOf inputFlat
  rw [hmap]
  dsimp only
  rw [if_neg hflow]
  split_ifs <;> rfl

theorem feedFlat_dropped (h : keyOf t c = .dropped) : feedFlat t l c = (l, true) := by
  unfold feedFlat
  rw [h]

theorem Front.feedByte (h : Front t l p) (hcanon : t.lflagHas PtyState.icanon = true) (c : UInt8) :
    Front t (feedFlat t l c).1 (p.feedByte c).1 ∧ (p.feedByte c).2 = (feedFlat t l c).2 := by
  obtain rfl : t = p.termios := h.termios.symm
  unfold Pty.feedByte
  cases hmap : p.termios.mapInput c with
  | none =>
    rw [feedFlat_dropped (by unfold keyOf; rw [hmap])]
    exact ⟨h, rfl⟩
  | some e =>
    by_cases hflow : p.termios.iflagHas ixon ∧ (p.termios.isCc vstop e ∨ p.termios.isCc vstart e)
    · rw [feedFlat_dropped (by unfold keyOf; rw [hmap]; exact if_pos hflow)]
      dsimp only
      rw [if_pos hflow.1]
      by_cases hstop : p.termios.isCc vstop e
      · rw [if_pos hstop]
        exact ⟨h.stopped true, rfl⟩
      · rw [if_neg hstop, if_pos (hflow.2.resolve_left hstop)]
        exact ⟨h.stopped false, rfl⟩
    · rw [feedFlat_some hmap hflow]
      dsimp only
      by_cases hixon : p.termios.iflagHas ixon
      · have hstop : ¬ p.termios.isCc vstop e := fun hstop ↦ hflow ⟨hixon, .inl hstop⟩
        have hstart : ¬ p.termios.isCc vstart e := fun hstart ↦ hflow ⟨hixon, .inr hstart⟩
        rw [if_pos hixon, if_neg hstop, if_neg hstart]
        by_cases hany : p.outputStopped = true ∧ p.termios.iflagHas ixany = true
        · rw [if_pos hany]
          exact (h.stopped false).inputByte hcanon e
        · rw [if_neg hany]
          exact h.inputByte hcanon e
      · rw [if_neg hixon]
        exact h.inputByte hcanon e

/-- A character would take the end of a complete line away, or all that is complete. -/
def bites (t : Termios) (l : List UInt8) (c : UInt8) : Bool :=
  match keyOf t c with
  | .char c =>
    if t.isCc verase c then l.getLast?.any (Pty.endsLine t)
    else t.isCc vkill c && l.any (Pty.endsLine t)
  | _ => false

namespace Cooked

theorem Formed.any_line (h : k.Formed t) : k.line.any (Pty.endsLine t) = false := by
  rw [List.any_eq_false]
  intro b hb
  rw [h.line b hb]
  exact Bool.false_ne_true

theorem Complete.any (h : Complete t l) : l.any (Pty.endsLine t) = true := by
  obtain ⟨body, e, rfl, he, -⟩ := h
  rw [List.any_append, List.any_cons, he, Bool.true_or, Bool.or_true]

theorem Complete.getLast (h : Complete t l) (m : List UInt8) :
    (m ++ l).getLast?.any (Pty.endsLine t) = true := by
  obtain ⟨body, e, rfl, he, -⟩ := h
  rw [← List.append_assoc, List.getLast?_concat]
  exact he

theorem Formed.any_flat (h : k.Formed t) : k.flat.any (Pty.endsLine t) = true ↔ k.lines ≠ [] := by
  unfold flat
  rw [List.any_append, h.any_line, Bool.or_false]
  cases hlines : k.lines with
  | nil => exact ⟨fun h ↦ absurd h Bool.false_ne_true, fun h ↦ absurd rfl h⟩
  | cons l lines =>
    refine ⟨fun _ ↦ List.cons_ne_nil l lines, fun _ ↦ ?_⟩
    have hl : Complete t l := h.lines l (hlines ▸ .head _)
    rw [List.flatten_cons, List.any_append, Complete.any hl, Bool.true_or]

theorem Formed.ends_flat (h : k.Formed t) :
    k.flat.getLast?.any (Pty.endsLine t) = true ↔ k.line = [] ∧ k.lines ≠ [] := by
  -- either the typed line has a character of its own, which ends nothing, or the last complete line
  -- comes last
  rcases List.eq_nil_or_concat k.line with hline | ⟨init, b, hline⟩
  · rcases List.eq_nil_or_concat k.lines with hnil | ⟨lines, l, hconcat⟩
    · have hflat : k.flat = [] := by
        rw [flat, hline, hnil]
        rfl
      rw [hflat]
      exact ⟨fun h ↦ absurd h Bool.false_ne_true, fun h ↦ absurd hnil h.2⟩
    · rw [List.concat_eq_append] at hconcat
      have hl : Complete t l := h.lines l (by rw [hconcat]; exact List.mem_concat_self)
      have hflat : k.flat = lines.flatten ++ l := by
        rw [flat, hline, hconcat, List.append_nil, List.flatten_append, List.flatten_singleton]
      rw [hflat, Complete.getLast hl, hconcat]
      exact ⟨fun _ ↦ ⟨hline, List.concat_ne_nil l lines⟩, fun _ ↦ rfl⟩
  · rw [List.concat_eq_append] at hline
    have hb : Pty.endsLine t b = false := h.line b (by rw [hline]; exact List.mem_concat_self)
    have hflat : k.flat.getLast? = some b := by
      rw [flat, hline, ← List.append_assoc, List.getLast?_concat]
    rw [hflat, hline]
    exact ⟨fun hend ↦ absurd (hend.symm.trans hb) Bool.true_eq_false.mp,
      fun h ↦ absurd h.1 (List.concat_ne_nil b init)⟩

theorem Formed.editFlat (h : k.Formed t)
    (hbite : (if t.isCc verase c then k.flat.getLast?.any (Pty.endsLine t) else t.isCc vkill c &&
      k.flat.any (Pty.endsLine t)) = false) :
    editFlat t k.flat c = ((k.edit t c).1.flat, (k.edit t c).2) := by
  unfold YabroOS.Stream.editFlat Cooked.edit
  by_cases herase : t.isCc verase c = true
  · rw [if_pos herase] at hbite
    rw [if_pos herase, if_pos herase]
    refine Prod.ext ?_ rfl
    show (k.lines.flatten ++ k.line).dropLast = k.lines.flatten ++ k.line.dropLast
    by_cases hline : k.line = []
    · have hlines : k.lines = [] := by
        by_contra hne
        rw [h.ends_flat.2 ⟨hline, hne⟩] at hbite
        cases hbite
      rw [hline, hlines]
      rfl
    · exact List.dropLast_append_of_ne_nil hline
  rw [if_neg herase] at hbite
  rw [if_neg herase, if_neg herase]
  by_cases hkill : t.isCc vkill c = true
  · rw [if_pos hkill, if_pos hkill]
    have hlines : k.lines = [] := by
      by_contra hne
      rw [hkill, h.any_flat.2 hne] at hbite
      cases hbite
    refine Prod.ext ?_ rfl
    show [] = k.lines.flatten ++ []
    rw [hlines]
    rfl
  rw [if_neg hkill, if_neg hkill]
  by_cases hfull : ptyCap ≤ k.flat.length
  · rw [if_pos hfull, if_pos hfull]
  rw [if_neg hfull, if_neg hfull]
  by_cases hend : Pty.endsLine t c = true
  · rw [if_pos hend]
    refine Prod.ext ?_ rfl
    show (k.lines.flatten ++ k.line) ++ [c] = (k.lines ++ [k.line ++ [c]]).flatten ++ []
    rw [List.flatten_append, List.flatten_singleton, List.append_nil, List.append_assoc]
  · rw [if_neg hend]
    exact Prod.ext (List.append_assoc ..) rfl

theorem Formed.feedFlat (h : k.Formed t) (hbite : bites t k.flat c = false) :
    feedFlat t k.flat c = ((k.key t c).1.flat, (k.key t c).2) := by
  unfold bites at hbite
  unfold YabroOS.Stream.feedFlat Cooked.key
  cases hkey : keyOf t c with
  | dropped => rfl
  | signal => cases t.lflagHas noflsh <;> rfl
  | char e =>
    rw [hkey] at hbite
    exact h.editFlat hbite

theorem Formed.feedFlat_ne (h : k.Formed t) (hbite : bites t k.flat c = true) :
    (YabroOS.Stream.feedFlat t k.flat c).1 ≠ (k.key t c).1.flat := by
  unfold bites at hbite
  unfold YabroOS.Stream.feedFlat Cooked.key
  cases hkey : keyOf t c with
  | dropped => rw [hkey] at hbite; cases hbite
  | signal => rw [hkey] at hbite; cases hbite
  | char e =>
    rw [hkey] at hbite
    dsimp only at hbite ⊢
    unfold YabroOS.Stream.editFlat Cooked.edit
    by_cases herase : t.isCc verase e = true
    · rw [if_pos herase] at hbite
      rw [if_pos herase, if_pos herase]
      have hline := (h.ends_flat.1 hbite).1
      show k.flat.dropLast ≠ k.lines.flatten ++ k.line.dropLast
      have hne : k.flat ≠ [] := by
        intro hnil
        rw [hnil] at hbite
        cases hbite
      have hshort : k.flat.dropLast.length < k.flat.length := by
        have hpos := List.length_pos_iff.2 hne
        rw [List.length_dropLast]
        omega
      have hsame : k.lines.flatten ++ k.line.dropLast = k.flat := by
        rw [hline]; exact congrArg _ hline.symm
      rw [hsame]
      exact fun heq ↦ absurd (congrArg List.length heq) (ne_of_lt hshort)
    · rw [if_neg herase] at hbite
      obtain ⟨hkill, hany⟩ := Bool.and_eq_true_iff.1 hbite
      rw [if_neg herase, if_neg herase, if_pos hkill, if_pos hkill]
      show [] ≠ k.lines.flatten ++ []
      intro hnil
      rw [flat, ← List.append_nil k.lines.flatten, ← hnil, List.nil_append, h.any_line] at hany
      cases hany

end Cooked

namespace Pty

/-- No byte of the input bites; what comes after a byte that is refused does not count. -/
def SparesBytes (p : Pty) : List UInt8 → Prop
  | [] => True
  | c :: src =>
    bites p.termios p.canon c = false ∧ ((p.feedByte c).2 = true → (p.feedByte c).1.SparesBytes src)

def Spares (p : Pty) : PtyCall → Prop
  | .masterWrite src fault => p.SparesBytes (fetched chunkSize fault src.length 0 src)
  | .setAttr _ _ _ => False
  | _ => True

/-- A run in which the attributes stay and no byte of the input bites. -/
def SparesRun (p : Pty) : List PtyCall → Prop
  | [] => True
  | call :: calls => p.Spares call ∧ (p.step call).1.SparesRun calls

end Pty

structure Cooks (t : Termios) (p : Pty) (k : Cooked) : Prop where
  front : Front t k.flat p
  formed : k.Formed t
  inOrder : k.InOrder

theorem Cooks.feed (h : Cooks t p k) (hcanon : t.lflagHas PtyState.icanon = true)
    (hspare : p.SparesBytes src) :
    Cooks t (consume Pty.feedByte p src).1 (consume (Cooked.key t) k src).1 := by
  induction src generalizing p k with
  | nil => exact h
  | cons c src ih =>
    obtain ⟨hbite, hrest⟩ := hspare
    rw [h.front.termios, h.front.canon] at hbite
    obtain ⟨hfront, htaken⟩ := h.front.feedByte hcanon c
    rw [h.formed.feedFlat hbite] at hfront htaken
    have hnext : Cooks t (p.feedByte c).1 (k.key t c).1 := ⟨hfront, h.formed.key c, h.inOrder.key c⟩
    by_cases hc : (p.feedByte c).2 = true
    · have hkey : (k.key t c).2 = true := htaken.symm.trans hc
      rw [consume_taken hc, consume_taken hkey]
      exact ih hnext (hrest hc)
    · have hkey : ¬ (k.key t c).2 = true := htaken ▸ hc
      rw [consume_refused hc, consume_refused hkey]
      exact hnext

/-- The bytes of a line without the character that stands for the end of the input. -/
def lineData (t : Termios) (l : List UInt8) : List UInt8 :=
  l.takeWhile fun c ↦ !t.isCc PtyState.veof c

theorem canonTake_complete (h : Complete t l) (n : ℕ) (m : List UInt8) :
    Pty.canonTake t n (l ++ m) = (min n l.length, lineData t (l.take n)) := by
  obtain ⟨body, e, rfl, he, hbody⟩ := h
  induction body generalizing n with
  | nil =>
    cases n with
    | zero => rw [Nat.zero_min]; rfl
    | succ n =>
      have hmin : min (n + 1) ([] ++ [e]).length = 1 := Nat.min_eq_right (Nat.succ_pos n)
      rw [hmin]
      show Pty.canonTake t (n + 1) (e :: m) = (1, lineData t (e :: List.take n []))
      rw [List.take_nil]
      by_cases hveof : t.isCc PtyState.veof e = true
      · rw [Pty.canonTake, if_pos hveof, lineData,
          List.takeWhile_cons_of_neg (by rw [hveof]; exact Bool.false_ne_true)]
      · have hend : e = 10 ∨ t.isCc PtyState.veol e = true ∨ t.isCc PtyState.veol2 e = true := by
          rcases of_decide_eq_true he with h | h | h
          · exact .inl h
          · exact absurd h hveof
          · exact .inr h
        rw [Pty.canonTake, if_neg hveof, if_pos hend, lineData,
          List.takeWhile_cons_of_pos (by rw [Bool.eq_false_iff.2 hveof]; rfl),
          List.takeWhile_nil]
  | cons b body ih =>
    cases n with
    | zero => rw [Nat.zero_min]; rfl
    | succ n =>
      have hb := of_decide_eq_false (hbody b (.head _))
      have hveof : ¬ t.isCc PtyState.veof b = true := fun h ↦ hb (.inr (.inl h))
      have hend : ¬ (b = 10 ∨ t.isCc PtyState.veol b = true ∨ t.isCc PtyState.veol2 b = true) := by
        rintro (h | h)
        · exact hb (.inl h)
        · exact hb (.inr (.inr h))
      have hrest := ih n (fun b hb ↦ hbody b (.tail _ hb))
      show Pty.canonTake t (n + 1) (b :: ((body ++ [e]) ++ m)) = _
      rw [Pty.canonTake, if_neg hveof, if_neg hend, hrest]
      show (min n (body ++ [e]).length + 1, _) =
        (min (n + 1) ((body ++ [e]).length + 1), lineData t (b :: (body ++ [e]).take n))
      rw [Nat.succ_min_succ, lineData, lineData,
        List.takeWhile_cons_of_pos (by rw [Bool.eq_false_iff.2 hveof]; rfl)]

def Cooked.result (t : Termios) (k : Cooked) (count : ℕ) (nonblock other copied : Bool) :
    Pty.Result :=
  if count = 0 then .read []
  else
    match k.lines with
    | [] => if nonblock ∨ other = false then .ret (-eagain) else .blocked
    | l :: _ => Pty.handOut (lineData t (l.take (chunk count))) copied

theorem Cooks.available (h : Cooks t p k) : p.canonAvailable = true ↔ k.lines ≠ [] := by
  unfold Pty.canonAvailable
  rw [h.front.termios, h.front.canon]
  exact h.formed.any_flat

theorem Cooks.slaveRead (h : Cooks t p k) (hcanon : t.lflagHas PtyState.icanon = true) (count : ℕ)
    (nonblock other copied : Bool) :
    Cooks t (p.slaveRead count nonblock other copied).1
      (k.step t (.slaveRead count nonblock other copied)) ∧
      (p.slaveRead count nonblock other copied).2 = k.result t count nonblock other copied := by
  have hformed := h.formed.step (.slaveRead count nonblock other copied)
  have hinOrder := h.inOrder.step (t := t) (.slaveRead count nonblock other copied)
  suffices hsame : Front t (k.step t (.slaveRead count nonblock other copied)).flat
      (p.slaveRead count nonblock other copied).1 ∧
      (p.slaveRead count nonblock other copied).2 = k.result t count nonblock other copied from
    ⟨⟨hsame.1, hformed, hinOrder⟩, hsame.2⟩
  unfold Pty.slaveRead Cooked.result
  show Front t (if count = 0 then k else k.read (chunk count)).flat _ ∧ _
  by_cases hcount : count = 0
  · rw [if_pos hcount, if_pos hcount, if_pos hcount]
    exact ⟨h.front, rfl⟩
  have hepipe : ¬ (p.masterOpen = false ∧ p.masterToSlave.count = 0 ∧ p.canon = []) := by
    rintro ⟨hopen, -⟩
    exact absurd (hopen.symm.trans h.front.masterOpen) Bool.false_ne_true
  rw [if_neg hcount, if_neg hcount, if_neg hcount, if_neg hepipe, h.front.termios, if_pos hcanon]
  obtain ⟨lines, line, completed⟩ := k
  cases lines with
  | nil =>
    have hnone : p.canonAvailable = false ∧ p.masterOpen = true := by
      refine ⟨?_, h.front.masterOpen⟩
      rw [← Bool.not_eq_true, h.available]
      exact not_not.2 rfl
    rw [if_pos hnone]
    exact ⟨h.front, rfl⟩
  | cons l lines =>
    have hsome : ¬ (p.canonAvailable = false ∧ p.masterOpen = true) := by
      rintro ⟨hnone, -⟩
      rw [h.available.2 (List.cons_ne_nil l lines)] at hnone
      cases hnone
    have hl : Complete t l := h.formed.lines l (.head _)
    have hflat : p.canon = l ++ (lines.flatten ++ line) := by
      rw [h.front.canon, Cooked.flat, List.flatten_cons, List.append_assoc]
    rw [if_neg hsome, hflat, canonTake_complete hl]
    refine ⟨h.front.congr ?_ h.front.termios.symm rfl rfl, rfl⟩
    show (l ++ (lines.flatten ++ line)).drop (min (chunk count) l.length) =
      (if l.length ≤ chunk count then lines else l.drop (chunk count) :: lines).flatten ++ line
    by_cases hall : l.length ≤ chunk count
    · rw [if_pos hall, Nat.min_eq_right hall, List.drop_left]
    · have hpart : chunk count ≤ l.length := le_of_lt (not_le.1 hall)
      rw [if_neg hall, Nat.min_eq_left hpart, List.drop_append_of_le_length hpart,
        List.flatten_cons, List.append_assoc]

theorem Cooks.step (h : Cooks t p k) (hcanon : t.lflagHas PtyState.icanon = true) (call : PtyCall)
    (hspare : p.Spares call) : Cooks t (p.step call).1 (k.step t call) := by
  have hsame {q : Pty} (hq : Front t k.flat q) : Cooks t q k := ⟨hq, h.formed, h.inOrder⟩
  cases call with
  | masterWrite src fault =>
    obtain ⟨failed, hloop⟩ :=
      chunkLoop_consume Pty.feedByte fault chunkSize_pos 0 p (le_refl src.length)
    show Cooks t (p.masterWrite src fault).1 _
    rw [Pty.masterWrite, if_neg (ne_of_eq_of_ne h.front.slaveOpen (Ne.symm Bool.false_ne_true))]
    show Cooks t (chunkLoop (consume Pty.feedByte) chunkSize fault src.length 0 p src).1 _
    rw [hloop]
    exact h.feed hcanon hspare
  | slaveWrite src fault =>
    obtain ⟨failed, hloop⟩ :=
      chunkLoop_consume Pty.outputByte fault chunkSize_pos 0 p (le_refl src.length)
    show Cooks t (p.slaveWrite src fault).1 k
    rw [Pty.slaveWrite, if_neg (ne_of_eq_of_ne h.front.masterOpen (Ne.symm Bool.false_ne_true))]
    show Cooks t (chunkLoop (consume Pty.outputByte) chunkSize fault src.length 0 p src).1 k
    rw [hloop]
    exact hsame (h.front.outputWrite _)
  | masterRead count nonblock other copied =>
    show Cooks t (p.masterRead count nonblock other copied).1 k
    unfold Pty.masterRead
    split_ifs <;> exact hsame (h.front.congr h.front.canon rfl rfl rfl)
  | slaveRead count nonblock other copied => exact (h.slaveRead hcanon count nonblock other copied).1
  | xonc action => exact hsame (h.front.xonc action)
  | setAttr => exact hspare.elim
  | flush input output =>
    have hinput : Front t (if input then k.flush else k).flat (if input then p.flushInput
        else p) := by
      cases input with
      | true => exact h.front.flushInput
      | false => exact h.front
    refine ⟨?_, h.formed.step (.flush input output), h.inOrder.step (t := t) (.flush input output)⟩
    cases output with
    | true => exact hinput.flushOutput
    | false => exact hinput

theorem Cooks.run (h : Cooks t p k) (hcanon : t.lflagHas PtyState.icanon = true)
    (calls : List PtyCall) (hspare : p.SparesRun calls) :
    Cooks t (p.run calls).1 (k.run t calls) := by
  induction calls generalizing p k with
  | nil => exact h
  | cons call calls ih => exact ih (h.step hcanon call hspare.1) hspare.2

theorem cooks_start (m s : ℕ → UInt8) (t : Termios) : Cooks t (Pty.start m s t) Cooked.start :=
  ⟨⟨rfl, rfl, rfl, rfl⟩, Cooked.formed_start, Cooked.inOrder_start⟩

/-- The line discipline of a terminal, at a point of a run: the lines that are complete are there as
they were completed and in that order, a character is only for the line that is typed, and a read
takes from the first complete line. -/
structure LineDiscipline (t : Termios) (p : Pty) (k : Cooked) : Prop where
  canon : p.canon = k.flat
  complete : ∀ l ∈ k.lines, Complete t l
  typed : ∀ b ∈ k.line, Pty.endsLine t b = false
  inOrder : k.InOrder
  feeds : ∀ c, (p.feedByte c).1.canon = (k.key t c).1.flat ↔ bites t p.canon c = false
  reads : ∀ count nonblock other copied, (p.slaveRead count nonblock other copied).2 =
    k.result t count nonblock other copied
  takes : ∀ count nonblock other copied,
    (p.slaveRead count nonblock other copied).1.canon =
      (k.step t (.slaveRead count nonblock other copied)).flat

theorem Cooks.feeds_iff (h : Cooks t p k) (hcanon : t.lflagHas PtyState.icanon = true) (c : UInt8) :
    (p.feedByte c).1.canon = (k.key t c).1.flat ↔ bites t p.canon c = false := by
  rw [(h.front.feedByte hcanon c).1.canon, h.front.canon]
  cases hbite : bites t k.flat c with
  | true => exact iff_of_false (h.formed.feedFlat_ne hbite) Bool.true_eq_false.mp
  | false => exact iff_of_true (congrArg Prod.fst (h.formed.feedFlat hbite)) rfl

theorem Cooks.lineDiscipline (h : Cooks t p k) (hcanon : t.lflagHas PtyState.icanon = true) :
    LineDiscipline t p k where
  canon := h.front.canon
  complete := h.formed.lines
  typed := h.formed.line
  inOrder := h.inOrder
  feeds := h.feeds_iff hcanon
  reads count nonblock other copied := (h.slaveRead hcanon count nonblock other copied).2
  takes count nonblock other copied := (h.slaveRead hcanon count nonblock other copied).1.front.canon

namespace Pty

/-- In every run in which no byte bites, a terminal keeps its lines. -/
theorem run_lineDiscipline (m s : ℕ → UInt8) (hcanon : t.lflagHas PtyState.icanon = true)
    (calls : List PtyCall) (hspare : (start m s t).SparesRun calls) :
    LineDiscipline t ((start m s t).run calls).1 (Cooked.start.run t calls) :=
  ((cooks_start m s t).run hcanon calls hspare).lineDiscipline hcanon

def plain : Termios := ⟨0, 0, PtyState.icanon, fun i ↦ if i = verase then 127 else 0⟩

/-- An erased character of a line that is typed is gone. -/
theorem run_lineDiscipline_plain :
    LineDiscipline plain
    ((start (fun _ ↦ 0) (fun _ ↦ 0) plain).run [.masterWrite [97, 10, 98, 127] fun _ ↦ false]).1
      (Cooked.start.run plain [.masterWrite [97, 10, 98, 127] fun _ ↦ false]) :=
  run_lineDiscipline (fun _ ↦ 0) (fun _ ↦ 0) rfl [.masterWrite [97, 10, 98, 127] fun _ ↦ false]
    ⟨⟨by decide, fun _ ↦ ⟨by decide, fun _ ↦ ⟨by decide, fun _ ↦ ⟨by decide, fun _ ↦ trivial⟩⟩⟩⟩,
      trivial⟩

/-- An erased newline joins the next line to one that was complete. -/
theorem not_run_lineDiscipline : ¬ ∀ (m s : ℕ → UInt8) (t : Termios) (calls : List PtyCall),
    t.lflagHas PtyState.icanon = true →
      (∀ call ∈ calls, ∀ iflag lflag cc, call ≠ .setAttr iflag lflag cc) →
      LineDiscipline t ((start m s t).run calls).1 (Cooked.start.run t calls) := by
  intro h
  have hline :=
    h (fun _ ↦ 0) (fun _ ↦ 0) plain [.masterWrite [97, 10, 127, 98, 10] fun _ ↦ false] rfl (by simp)
  exact absurd (hline.reads 16 false false true) (by decide)

end Pty

end YabroOS.Stream
