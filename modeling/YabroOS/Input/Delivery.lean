import YabroOS.Input.Cursors

namespace YabroOS.Input

open Lib Function

namespace Evdev

variable {s s' s'' : Evdev} {d : Dev} {p q i c c' m : ℕ} {f g : File} {D D' : Description}

structure Moved (s s' : Evdev) (i c : ℕ) : Prop where
  queue : s'.queue = s.queue
  eventSeq : s'.eventSeq = s.eventSeq
  pushed : s'.pushed = s.pushed
  opens : s'.opens = s.opens
  descs : s'.descs = s.descs
  files : s'.files = s.files
  states : s'.states = update s.states i { s.states i with seq := c }

theorem moved_self (s : Evdev) (i : ℕ) : Moved s s i (s.states i).seq :=
  ⟨rfl, rfl, rfl, rfl, rfl, rfl, (update_eq_self i s.states).symm⟩

namespace Moved

theorem seq (h : Moved s s' i c) : (s'.states i).seq = c := by
  rw [h.states, update_self]

theorem trans (h : Moved s s' i c) (h' : Moved s' s'' i c') : Moved s s'' i c' where
  queue := h'.queue.trans h.queue
  eventSeq := h'.eventSeq.trans h.eventSeq
  pushed := h'.pushed.trans h.pushed
  opens := h'.opens.trans h.opens
  descs := h'.descs.trans h.descs
  files := h'.files.trans h.files
  states := by rw [h'.states, h.states, update_idem, update_self]

theorem oldest (h : Moved s s' i c) (d : Dev) : s'.eventOldestSeq d = s.eventOldestSeq d := by
  rw [eventOldestSeq, eventOldestSeq, h.eventSeq]

theorem tied (h : Moved s s' i c) (hs : Tied s) : Tied s' := by
  have hrefs : (fun j ↦ (s'.states j).refs) = fun j ↦ (s.states j).refs := by
    rw [h.states, states_update OpenState.refs, update_eq_self]
  have hused : (fun j ↦ (s'.states j).used) = fun j ↦ (s.states j).used := by
    rw [h.states]
    exact used_update s i _ rfl
  have hlinks : s'.links = s.links := funext fun q ↦ by rw [links, links, h.files]
  refine ⟨?_, ?_, ?_, ?_⟩
  · rw [h.files]
    exact hs.inside
  · rw [hrefs, hused, hlinks]
    exact hs.counted
  · rw [h.files, h.opens, h.descs]
    exact hs.file
  · rw [h.files]
    exact hs.shared

end Moved

theorem inputFdSeqSet_moved (h : Tied s) (hf : s.files p = some f) (hi : f.inputState = some i)
    (c : ℕ) : Moved s (s.inputFdSeqSet p c) i c := by
  have hused := h.used_of_link hf hi
  have heq : s.inputFdSeqSet p c =
      { s with inputSeq := update s.inputSeq p c, states := update s.states i { s.states i with
        seq := c } } := by
    simp only [inputFdSeqSet, hf, hi, hused, if_true]
  rw [heq]
  exact ⟨rfl, rfl, rfl, rfl, rfl, rfl, rfl⟩

theorem isOf_dev (hf : s.files p = some f) : s.isOf f.dev p = true := by
  simp [isOf, hf]

theorem fdSync_moved (h : Tied s) (hf : s.files p = some f) (hi : f.inputState = some i) :
    Moved s (s.fdSync f.dev p) i (max (s.states i).seq (s.eventOldestSeq f.dev)) := by
  have hseq := h.inputFdSeq_eq hf hi
  rw [fdSync, isOf_dev hf, if_neg (by decide), hseq]
  split_ifs with hlt
  · rw [max_eq_right hlt.le]
    exact inputFdSeqSet_moved h hf hi _
  · rw [max_eq_left (not_lt.1 hlt)]
    exact moved_self s i

theorem fdReady_moved (h : Tied s) (hf : s.files p = some f) (hi : f.inputState = some i) :
    Moved s (s.fdReady f.dev p).1 i (max (s.states i).seq (s.eventOldestSeq f.dev)) ∧
      (s.fdReady f.dev p).2 =
        decide (max (s.states i).seq (s.eventOldestSeq f.dev) < s.eventSeq f.dev) := by
  have hsync := fdSync_moved h hf hi
  have hseq := (hsync.tied h).inputFdSeq_eq (by rw [hsync.files]; exact hf) hi
  rw [fdReady, isOf_dev hf, if_neg (by decide)]
  refine ⟨hsync, ?_⟩
  dsimp only
  rw [hseq, hsync.seq, hsync.eventSeq]

theorem popEventFd_moved (h : Tied s) (hf : s.files p = some f) (hi : f.inputState = some i)
    (hm : m = max (s.states i).seq (s.eventOldestSeq f.dev)) :
    (m < s.eventSeq f.dev ∧ (s.popEventFd f.dev p).2 = some (m, s.queue f.dev (m % inputEventCap)) ∧
      Moved s (s.popEventFd f.dev p).1 i (m + 1)) ∨
    (s.eventSeq f.dev ≤ m ∧ (s.popEventFd f.dev p).2 = none ∧
      Moved s (s.popEventFd f.dev p).1 i m) := by
  obtain ⟨hready, hdec⟩ := fdReady_moved h hf hi
  rw [← hm] at hready hdec
  rw [popEventFd]
  generalize s.fdReady f.dev p = r at hready hdec ⊢
  obtain ⟨s₁, ready⟩ := r
  dsimp only at hready hdec
  have hf₁ : s₁.files p = some f := by rw [hready.files]; exact hf
  have hseq := (hready.tied h).inputFdSeq_eq hf₁ hi
  by_cases hlt : m < s.eventSeq f.dev
  · rw [decide_eq_true hlt] at hdec
    subst hdec
    dsimp only
    rw [hseq, hready.seq, hready.queue]
    exact .inl ⟨hlt, rfl, hready.trans (inputFdSeqSet_moved (hready.tied h) hf₁ hi _)⟩
  · rw [decide_eq_false hlt] at hdec
    subst hdec
    exact .inr ⟨not_lt.1 hlt, rfl, hready⟩

def numbered (s : Evdev) (d : Dev) (m k : ℕ) : List (ℕ × InputEvent) :=
  (List.range' m k).map (fun n ↦ (n, s.queue d (n % inputEventCap)))

theorem popLoop_succ (d : Dev) (p n : ℕ) (s : Evdev) :
    popLoop d p (n + 1) s =
      match s.popEventFd d p with
      | (s, none) => (s, [])
      | (s, some e) => ((popLoop d p n s).1, e :: (popLoop d p n s).2) := by
  cases d <;> rfl

theorem popLoop_moved (h : Tied s) (hf : s.files p = some f) (hi : f.inputState = some i) (n : ℕ)
    {k : ℕ} (hm : m = max (s.states i).seq (s.eventOldestSeq f.dev))
    (hk : k = min (n + 1) (s.eventSeq f.dev - m)) :
    (popLoop f.dev p (n + 1) s).2 = s.numbered f.dev m k ∧
      Moved s (popLoop f.dev p (n + 1) s).1 i (m + k) := by
  induction n generalizing s m k with
  | zero =>
    rw [popLoop_succ]
    obtain ⟨hlt, he, hmv⟩ | ⟨hle, he, hmv⟩ := popEventFd_moved h hf hi hm
    · generalize s.popEventFd f.dev p = r at he hmv ⊢
      obtain ⟨s₁, e⟩ := r
      dsimp only at he hmv
      subst he
      have hone : k = 1 := by omega
      subst hone
      exact ⟨rfl, hmv⟩
    · generalize s.popEventFd f.dev p = r at he hmv ⊢
      obtain ⟨s₁, e⟩ := r
      dsimp only at he hmv
      subst he
      have hzero : k = 0 := by omega
      subst hzero
      exact ⟨rfl, hmv⟩
  | succ n ih =>
    rw [popLoop_succ]
    obtain ⟨hlt, he, hmv⟩ | ⟨hle, he, hmv⟩ := popEventFd_moved h hf hi hm
    · generalize s.popEventFd f.dev p = r at he hmv ⊢
      obtain ⟨s₁, e⟩ := r
      dsimp only at he hmv
      subst he
      have hf₁ : s₁.files p = some f := by rw [hmv.files]; exact hf
      have hm₁ : m + 1 = max (s₁.states i).seq (s₁.eventOldestSeq f.dev) := by
        rw [hmv.seq, hmv.oldest]
        omega
      have hk₁ : k - 1 = min (n + 1) (s₁.eventSeq f.dev - (m + 1)) := by
        rw [hmv.eventSeq]
        omega
      obtain ⟨hl, hmv'⟩ := ih (hmv.tied h) hf₁ hm₁ hk₁
      have hsucc : k = (k - 1) + 1 := by omega
      have hend : m + 1 + (k - 1) = m + k := by omega
      rw [hend] at hmv'
      refine ⟨?_, hmv.trans hmv'⟩
      dsimp only
      rw [hl, hsucc, numbered, numbered, hmv.queue, List.range'_succ, List.map_cons]
      rfl
    · generalize s.popEventFd f.dev p = r at he hmv ⊢
      obtain ⟨s₁, e⟩ := r
      dsimp only at he hmv
      subst he
      have hzero : k = 0 := by omega
      subst hzero
      exact ⟨rfl, hmv⟩

/-- A description whose cursor goes on, past events that its readers have taken or that are gone. -/
structure Advance (s : Evdev) (D D' : Description) (c c' : ℕ) : Prop where
  dev : D'.dev = D.dev
  start : D'.start = D.start
  le : c ≤ c'
  bound : c' ≤ s.eventSeq D.dev
  received : ∃ l, D'.received = D.received ++ l ∧ (l.map Prod.fst).Pairwise (· < ·) ∧
    (∀ e ∈ l, max c (s.eventOldestSeq D.dev) ≤ e.1 ∧ e.1 < c' ∧
      e.2 = s.queue D.dev (e.1 % inputEventCap)) ∧
    ∀ n, max c (s.eventOldestSeq D.dev) ≤ n → n < c' → n ∈ l.map Prod.fst ∨ n ∈ D'.faulted
  faulted : D.faulted ⊆ D'.faulted

theorem Advance.reader (ha : s.Advance D D' c c') (h : s.Reader D c) : s.Reader D' c' := by
  obtain ⟨l, hl, -, htaken, hall⟩ := ha.received
  refine ⟨ha.start ▸ h.start_le.trans ha.le, ha.dev ▸ ha.bound, fun e he ↦ ?_, fun n hn hc ↦ ?_⟩
  · rw [hl, List.mem_append] at he
    obtain he | he := he
    · exact (h.below e he).trans_le ha.le
    · exact (htaken e he).2.1
  · rw [ha.start] at hn
    rw [ha.dev, hl, List.map_append, List.mem_append]
    by_cases hold : n < c
    · obtain h₁ | h₁ | h₁ := h.covered n hn hold
      · exact .inl (.inl h₁)
      · exact .inr (.inl (ha.faulted h₁))
      · exact .inr (.inr h₁)
    · by_cases hgone : n < s.eventOldestSeq D.dev
      · exact .inr (.inr hgone)
      · obtain h₁ | h₁ := hall n (max_le (not_lt.1 hold) (not_lt.1 hgone)) hc
        · exact .inl (.inr h₁)
        · exact .inr (.inl h₁)

theorem Advance.delivered (ha : s.Advance D D' c c') (hw : Window s) (hr : s.Reader D c)
    (h : s.Delivered D) : s.Delivered D' := by
  have hreader := ha.reader hr
  obtain ⟨l, hl, hinc, htaken, -⟩ := ha.received
  refine ⟨?_, fun e he ↦ ?_, fun e he ↦ ?_, fun n hn ⟨e, he, hlt⟩ ↦ ?_⟩
  · rw [hl, List.map_append, List.pairwise_append]
    refine ⟨h.increasing, hinc, fun a ha' b hb ↦ ?_⟩
    obtain ⟨e, he, rfl⟩ := List.mem_map.1 ha'
    obtain ⟨e', he', rfl⟩ := List.mem_map.1 hb
    exact (hr.below e he).trans_le ((le_max_left _ _).trans (htaken e' he').1)
  · rw [hl, List.mem_append] at he
    rw [ha.start]
    obtain he | he := he
    · exact h.since e he
    · exact hr.start_le.trans ((le_max_left _ _).trans (htaken e he).1)
  · rw [hl, List.mem_append] at he
    rw [ha.dev]
    obtain he | he := he
    · exact h.pushed e he
    · obtain ⟨hge, hlt, hq⟩ := htaken e he
      rw [hq]
      exact hw.queue _ _ (hlt.trans_le ha.bound) ((le_max_right _ _).trans hge)
  · exact hreader.covered n hn (hlt.trans (hreader.below e he))

theorem Inv.advance (h : Inv s) (hf : s.files p = some f) (hi : f.inputState = some i)
    (hm : Moved s s' i c') (ha : s.Advance (s.descs f.opened) D' (s.states i).seq c') :
    Inv (s'.modifyDesc f.opened (fun _ ↦ D')) := by
  have hreader := h.reader p f i hf hi
  obtain ⟨hopened, -, -⟩ := h.file p f hf
  have htied := hm.tied h.toTied
  constructor
  · refine ⟨?_, fun d n hn ho ↦ ?_⟩
    · change ∀ d, s'.eventSeq d = (s'.pushed d).length
      rw [hm.eventSeq, hm.pushed]
      exact h.length
    · change n < s'.eventSeq d at hn
      change s'.eventOldestSeq d ≤ n at ho
      rw [hm.eventSeq] at hn
      rw [hm.oldest] at ho
      change (s'.pushed d)[n]? = some (s'.queue d (n % inputEventCap))
      rw [hm.pushed, hm.queue]
      exact h.queue d n hn ho
  · refine ⟨htied.inside, htied.counted, fun q g hg ↦ ?_, htied.shared⟩
    obtain ⟨h₁, h₂, h₃⟩ := htied.file q g hg
    refine ⟨h₁, ?_, h₃⟩
    change (update s'.descs f.opened D' g.opened).dev = g.dev
    by_cases hg' : g.opened = f.opened
    · rw [hm.descs, hg'] at h₂
      rw [hg', update_self, ha.dev]
      exact h₂
    · rwa [update_of_ne hg']
  case delivered =>
    intro o ho
    change o < s'.opens at ho
    rw [hm.opens] at ho
    change Delivered _ (update s'.descs f.opened D' o)
    have hprefix : ∀ d, s.pushed d <+: s'.pushed d := fun d ↦ by rw [hm.pushed]
    by_cases ho' : o = f.opened
    · rw [ho', update_self]
      exact (ha.delivered h.toWindow hreader (h.delivered _ hopened)).mono hprefix fun d ↦
        (hm.oldest d).ge
    · rw [update_of_ne ho', hm.descs]
      exact (h.delivered o ho).mono hprefix fun d ↦ (hm.oldest d).ge
  case reader =>
    intro q g j hg hj
    change s'.files q = some g at hg
    have hg₀ := hg
    rw [hm.files] at hg₀
    have hsame : j = i ↔ g.opened = f.opened := by
      rw [← h.shared q p g f hg₀ hf, hi, hj, Option.some.injEq]
    change Reader _ (update s'.descs f.opened D' g.opened) (s'.states j).seq
    have hseq : ∀ d, s.eventSeq d ≤ s'.eventSeq d := fun d ↦ by rw [hm.eventSeq]
    by_cases hji : j = i
    · rw [hsame.1 hji, update_self, hji, hm.seq]
      exact (ha.reader hreader).mono hseq
    · rw [update_of_ne fun hc ↦ hji (hsame.2 hc), hm.descs, hm.states, update_of_ne hji]
      exact (h.reader q g j hg₀ hj).mono hseq

theorem modifyDesc_self (s : Evdev) (o : ℕ) : s.modifyDesc o (fun _ ↦ s.descs o) = s := by
  rw [modifyDesc, update_eq_self]

theorem Inv.poll (h : Inv s) (hf : s.files p = some f) (hi : f.inputState = some i) :
    Moved s (s.poll p).1 i (max (s.states i).seq (s.eventOldestSeq f.dev)) ∧ Inv (s.poll p).1 := by
  have hpoll : s.poll p = s.fdReady f.dev p := by
    rw [Evdev.poll, hf]
    dsimp only
    cases f.dev <;> rfl
  have hready := (fdReady_moved h.toTied hf hi).1
  have hreader := h.reader p f i hf hi
  obtain ⟨-, hdev, -⟩ := h.file p f hf
  have hle := hreader.le
  rw [hpoll]
  refine ⟨hready, ?_⟩
  have ha : s.Advance (s.descs f.opened) (s.descs f.opened) (s.states i).seq
      (max (s.states i).seq (s.eventOldestSeq f.dev)) := by
    refine ⟨rfl, rfl, le_max_left _ _, ?_, ⟨[], by simp, .nil, nofun, fun n h₁ h₂ ↦ ?_⟩, fun _ h ↦ h⟩
    · have := s.eventOldestSeq_eq f.dev
      rw [hdev] at hle ⊢
      omega
    · rw [hdev] at h₁
      omega
  have hinv := h.advance hf hi hready ha
  rwa [← hready.descs, modifyDesc_self] at hinv

def taking (D : Description) (l : List (ℕ × InputEvent)) (copied : Bool) : Description :=
  if copied then { D with received := D.received ++ l }
  else { D with faulted := D.faulted ++ l.map Prod.fst }

theorem numbered_fst (s : Evdev) (d : Dev) (m k : ℕ) :
    (s.numbered d m k).map Prod.fst = List.range' m k := by
  rw [numbered, List.map_map]
  exact List.map_id _

theorem sysRead_moved (h : Tied s) (hf : s.files p = some f) (hi : f.inputState = some i)
    {count k : ℕ} (hcount : inputEventSize ≤ count) (copied : Bool)
    (hm : m = max (s.states i).seq (s.eventOldestSeq f.dev))
    (hk : k = min (min (count / inputEventSize) inputEventReadMax) (s.eventSeq f.dev - m)) :
    ∃ s₁, Moved s s₁ i (m + k) ∧ (s.sysRead p count copied).1 =
      s₁.modifyDesc f.opened (fun _ ↦ taking (s.descs f.opened) (s.numbered f.dev m k) copied) := by
  have hpos : 0 < count / inputEventSize := Nat.div_pos hcount (by decide)
  have hzero : ¬ count = 0 := by
    rintro rfl
    simp [inputEventSize] at hcount
  obtain ⟨n, hn⟩ : ∃ n, min (count / inputEventSize) inputEventReadMax = n + 1 := by
    refine ⟨min (count / inputEventSize) inputEventReadMax - 1, ?_⟩
    simp only [inputEventReadMax]
    omega
  rw [hn] at hk
  obtain ⟨hl, hmv⟩ := popLoop_moved h hf hi n hm hk
  unfold sysRead
  simp only [hf, if_neg hzero, if_neg (not_lt.2 hcount), hn]
  generalize popLoop f.dev p (n + 1) s = r at hl hmv ⊢
  obtain ⟨s₁, l⟩ := r
  dsimp only at hl hmv
  refine ⟨s₁, hmv, ?_⟩
  rw [← hl, ← hmv.descs]
  cases l with
  | nil =>
    have hsame : taking (s₁.descs f.opened) [] copied = s₁.descs f.opened := by
      cases copied <;> simp [taking]
    rw [hsame, modifyDesc_self]
  | cons e l => cases copied <;> rfl

theorem Inv.sysRead (h : Inv s) (p count : ℕ) (copied : Bool) :
    Inv (s.sysRead p count copied).1 := by
  cases hf : s.files p with
  | none =>
    simp only [Evdev.sysRead, hf]
    exact h
  | some f =>
    by_cases hsmall : count < inputEventSize
    · simp only [Evdev.sysRead, hf, hsmall, if_true]
      split_ifs
      · exact h
      · exact h
    · obtain ⟨i, hi⟩ := Option.ne_none_iff_exists'.1 (h.file p f hf).2.2
      obtain ⟨-, hdev, -⟩ := h.file p f hf
      obtain ⟨s₁, hmv, heq⟩ := sysRead_moved h.toTied hf hi (not_lt.1 hsmall) copied rfl rfl
      have hreader := (h.reader p f i hf hi).le
      rw [heq]
      refine h.advance hf hi hmv ?_
      generalize hm : max (s.states i).seq (s.eventOldestSeq f.dev) = m at hmv
      generalize hk : min (min (count / inputEventSize) inputEventReadMax) (s.eventSeq f.dev - m) =
        k at hmv
      have hbound : m ≤ s.eventSeq f.dev := by
        have := s.eventOldestSeq_eq f.dev
        rw [hdev] at hreader
        omega
      have hmem : ∀ n, m ≤ n → n < m + k → n ∈ (s.numbered f.dev m k).map Prod.fst := by
        intro n h₁ h₂
        rw [numbered_fst, List.mem_range'_1]
        exact ⟨h₁, h₂⟩
      cases copied with
      | true =>
        refine ⟨rfl, rfl, by omega, by rw [hdev]; omega,
          ⟨s.numbered f.dev m k, rfl, ?_, fun e he ↦ ?_, fun n h₁ h₂ ↦ ?_⟩,
          fun _ h ↦ h⟩
        · rw [numbered_fst]
          exact List.pairwise_lt_range'
        · obtain ⟨n, hn, rfl⟩ := List.mem_map.1 he
          rw [List.mem_range'_1] at hn
          rw [hdev, hm]
          exact ⟨hn.1, hn.2, rfl⟩
        · rw [hdev, hm] at h₁
          exact .inl (hmem n h₁ h₂)
      | false =>
        refine ⟨rfl, rfl, by omega, by rw [hdev]; omega,
          ⟨[], (List.append_nil _).symm, .nil, nofun, fun n h₁ h₂ ↦ ?_⟩,
          List.subset_append_left _ _⟩
        rw [hdev, hm] at h₁
        exact .inr (List.mem_append_right _ (hmem n h₁ h₂))

theorem Inv.releaseTable (h : Inv s) (table : ℕ) : Inv (s.releaseTable table) := by
  have hfold : ∀ l : List ℕ, ∀ s, Inv s →
      Inv (l.foldl (fun s fd ↦ s.fdMarkClosed (place table fd)) s) := by
    intro l
    induction l with
    | nil => exact fun s hs ↦ hs
    | cons fd l ih => exact fun s hs ↦ ih _ (hs.fdMarkClosed _)
  exact hfold _ s h

theorem copyFd_files (s : Evdev) {src dst : ℕ} (hq : q ≠ dst) :
    (s.copyFd src dst).files q = s.files q := by
  rw [Evdev.copyFd]
  split
  · rfl
  next f hf =>
  have hretain : ∀ (s : Evdev) a, (s.inputStateRetain a).files = s.files := by
    intro s a
    cases a with
    | none => rfl
    | some i =>
      simp only [inputStateRetain]
      split_ifs
      · rfl
      · rfl
  rw [hretain]
  exact update_of_ne hq _ _

theorem Inv.cloneTable (h : Inv s) (src : ℕ) (dst : Fin 32) (hidle : s.Idle dst) :
    Inv (s.cloneTable src dst) := by
  -- The places that are still to be filled stay free.
  have hfold : ∀ l : List ℕ, l.Nodup → (∀ fd ∈ l, fd < maxFiles) → ∀ s, Inv s →
      (∀ fd ∈ l, s.files (place dst fd) = none) →
      Inv (l.foldl (fun s fd ↦ s.copyFd (place src fd) (place dst fd)) s) := by
    intro l hl hlt
    induction l with
    | nil => exact fun s hs _ ↦ hs
    | cons fd l ih =>
      intro s hs hfree
      rw [List.nodup_cons] at hl
      refine ih hl.2 (fun fd' hfd ↦ hlt fd' (List.mem_cons_of_mem _ hfd)) _ ?_ fun fd' hfd' ↦ ?_
      · exact hs.copyFd (hfree fd List.mem_cons_self) (place_lt dst ⟨fd, hlt fd List.mem_cons_self⟩)
      · have hne : place dst fd' ≠ place dst fd := by
          intro hc
          have hfd : fd' = fd := Nat.add_left_cancel hc
          exact hl.1 (hfd ▸ hfd')
        rw [copyFd_files s hne]
        exact hfree fd' (List.mem_cons_of_mem _ hfd')
  refine hfold _ List.nodup_range (fun fd hfd ↦ List.mem_range.1 hfd) s h fun fd hfd ↦ ?_
  exact hidle fd (List.mem_range.1 hfd)

theorem fdMarkClosed_files (s : Evdev) (p : ℕ) : (s.fdMarkClosed p).files p = none := by
  rw [Evdev.fdMarkClosed]
  split
  · assumption
  · exact update_self _ _ _

theorem Inv.step (h : Inv s) (op : Op) : Inv (s.step op) := by
  cases op with
  | inputPushEvent e => exact h.pushEvent .keyboard e
  | mousePushEvent e => exact h.pushEvent .mouse e
  | openDev table fd d flags =>
    simp only [Evdev.step]
    split_ifs with hin
    · exact h
    · exact h.openDev (Option.not_isSome_iff_eq_none.1 hin) (place_lt table fd) d flags
  | dup table src dst =>
    simp only [Evdev.step, Evdev.dup]
    split_ifs
    · exact h
    · exact (h.fdMarkClosed _).copyFd (fdMarkClosed_files _ _) (place_lt table dst)
  | close table fd => exact h.fdMarkClosed _
  | fork src dst =>
    simp only [Evdev.step]
    split_ifs with hidle
    · exact h.cloneTable src dst hidle
    · exact h
  | exit table => exact h.releaseTable table
  | poll table fd =>
    simp only [Evdev.step]
    cases hf : s.files (place table fd) with
    | none =>
      simp only [Evdev.poll, hf]
      exact h
    | some f =>
      obtain ⟨i, hi⟩ := Option.ne_none_iff_exists'.1 (h.file _ f hf).2.2
      exact (h.poll hf hi).2
  | read table fd count copied => exact h.sysRead _ count copied

theorem inv_init (queue : Dev → ℕ → InputEvent) : Inv (init queue) where
  length _ := rfl
  queue _ _ hn := absurd hn (Nat.not_lt_zero _)
  inside _ _ := rfl
  counted := by
    refine ⟨fun i ↦ ?_, fun i ↦ by simp [init]⟩
    have hzero : pointers (Finset.range places) (init queue).links i = 0 :=
      pointers_eq_zero fun q _ hc ↦ by cases (hc : (none : Option ℕ) = some i)
    rw [hzero]
    rfl
  file _ _ hf := nomatch hf
  shared _ _ _ _ hf := nomatch hf
  delivered o ho := absurd ho (Nat.not_lt_zero o)
  reader _ _ _ hf := nomatch hf

theorem Inv.run (h : Inv s) (l : List Op) : Inv (s.run l) := by
  induction l generalizing s with
  | nil => exact h
  | cons op l ih => exact ih (h.step op)

theorem Moved.inputFdSeq (h : Moved s s' i c) (hs : Tied s) (hf : s.files p = some f)
    (hi : f.inputState = some i) :
    s'.inputFdSeq p = c ∧ ∀ q g, s.files q = some g → g.opened ≠ f.opened →
      s'.inputFdSeq q = s.inputFdSeq q := by
  have htied := h.tied hs
  refine ⟨?_, fun q g hg hne ↦ ?_⟩
  · rw [htied.inputFdSeq_eq (by rw [h.files]; exact hf) hi, h.seq]
  · obtain ⟨j, hj⟩ := Option.ne_none_iff_exists'.1 (hs.file q g hg).2.2
    have hji : j ≠ i := by
      rintro rfl
      exact hne ((hs.shared q p g f hg hf).1 (hj.trans hi.symm))
    rw [htied.inputFdSeq_eq (by rw [h.files]; exact hg) hj, hs.inputFdSeq_eq hg hj, h.states,
      update_of_ne hji]

/-- What the next poll and the next read do to the description of a descriptor. -/
structure Reads (s : Evdev) (p : ℕ) (f : File) (m : ℕ) : Prop where
  poll : (s.poll p).1.inputFdSeq p = m ∧ (s.poll p).1.descs = s.descs
  read : ∀ count copied k, inputEventSize ≤ count →
    k = min (min (count / inputEventSize) inputEventReadMax) (s.eventSeq f.dev - m) →
    (s.sysRead p count copied).1.inputFdSeq p = m + k ∧
    (s.sysRead p count copied).1.descs =
      update s.descs f.opened (taking (s.descs f.opened) (s.numbered f.dev m k) copied) ∧
    ∀ q g, s.files q = some g → g.opened ≠ f.opened →
      (s.sysRead p count copied).1.inputFdSeq q = s.inputFdSeq q

theorem Inv.reads (h : Inv s) (hf : s.files p = some f) :
    s.Reads p f (max (s.inputFdSeq p) (s.eventOldestSeq f.dev)) := by
  obtain ⟨i, hi⟩ := Option.ne_none_iff_exists'.1 (h.file p f hf).2.2
  have hpoll := (h.poll hf hi).1
  rw [h.inputFdSeq_eq hf hi]
  refine ⟨⟨(hpoll.inputFdSeq h.toTied hf hi).1, hpoll.descs⟩, fun count copied k hcount hk ↦ ?_⟩
  obtain ⟨s₁, hmv, heq⟩ := sysRead_moved h.toTied hf hi hcount copied rfl hk
  obtain ⟨hseq, hothers⟩ := hmv.inputFdSeq h.toTied hf hi
  rw [heq]
  refine ⟨hseq, ?_, hothers⟩
  rw [modifyDesc, hmv.descs]

/-- In every run of pushes, opens, copies of descriptors, closes, polls and reads, each description
gets the events in order from the one after its open, each as it was pushed; its descriptors share
one cursor; and a read goes on at the cursor, or at the oldest event of the queue when that has been
passed. -/
theorem evdev_stream (queue : Dev → ℕ → InputEvent) (l : List Op) :
    let s := (init queue).run l
    (∀ o < s.opens, s.Delivered (s.descs o)) ∧
    (∀ p q f g, s.files p = some f → s.files q = some g → f.opened = g.opened →
      f.dev = g.dev ∧ s.inputFdSeq p = s.inputFdSeq q) ∧
    ∀ p f, s.files p = some f → s.Reads p f (max (s.inputFdSeq p) (s.eventOldestSeq f.dev)) := by
  intro s
  have h : Inv s := (inv_init queue).run l
  refine ⟨h.delivered, fun p q f g hf hg hfg ↦ ?_, fun p f hf ↦ h.reads hf⟩
  obtain ⟨i, hi⟩ := Option.ne_none_iff_exists'.1 (h.file p f hf).2.2
  have hi' : g.inputState = some i := ((h.shared p q f g hf hg).2 hfg).symm.trans hi
  refine ⟨?_, ?_⟩
  · rw [← (h.file p f hf).2.1, ← (h.file q g hg).2.1, hfg]
  · rw [h.inputFdSeq_eq hf hi, h.inputFdSeq_eq hg hi']

/-- A read whose buffer cannot be written loses the event that it has taken from the queue. -/
theorem evdev_read_loses_event :
    let e : InputEvent := ⟨0, 0, 1, 30, 1⟩
    let s := (init fun _ _ ↦ e).run [.openDev 0 3 .keyboard 0, .inputPushEvent e,
      .read 0 3 24 false, .inputPushEvent e,
      .read 0 3 24 true]
    (s.descs 0).start = 0 ∧ (s.descs 0).received = [(1, e)] ∧ s.eventOldestSeq .keyboard = 0 := by
  decide +kernel

end Evdev

end YabroOS.Input
