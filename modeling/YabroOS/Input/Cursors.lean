import YabroOS.Input.Evdev

namespace YabroOS.Input

open Lib Function

namespace Evdev

variable {s s' s'' : Evdev} {d : Dev} {p q i c : ℕ} {f g : File}

@[irreducible] def places : ℕ := 32 * maxFiles

def links (s : Evdev) (p : ℕ) : Option ℕ := (s.files p).bind File.inputState

theorem eventOldestSeq_eq (s : Evdev) (d : Dev) :
    s.eventOldestSeq d = s.eventSeq d - inputEventCap := by
  rw [eventOldestSeq]
  split_ifs with h
  · rfl
  · omega

/-- A description's readers have received numbered events in order from its start, each the one
pushed with that number, and every number they passed over was overwritten or went with a failed
read. -/
structure Delivered (s : Evdev) (D : Description) : Prop where
  increasing : (D.received.map Prod.fst).Pairwise (· < ·)
  since : ∀ e ∈ D.received, D.start ≤ e.1
  pushed : ∀ e ∈ D.received, (s.pushed D.dev)[e.1]? = some e.2
  skipped : ∀ n, D.start ≤ n → (∃ e ∈ D.received, n < e.1) →
    n ∈ D.received.map Prod.fst ∨ n ∈ D.faulted ∨ n < s.eventOldestSeq D.dev

structure Reader (s : Evdev) (D : Description) (c : ℕ) : Prop where
  start_le : D.start ≤ c
  le : c ≤ s.eventSeq D.dev
  below : ∀ e ∈ D.received, e.1 < c
  covered : ∀ n, D.start ≤ n → n < c → n ∈ D.received.map Prod.fst ∨ n ∈ D.faulted ∨
    n < s.eventOldestSeq D.dev

structure Window (s : Evdev) : Prop where
  length : ∀ d, s.eventSeq d = (s.pushed d).length
  queue : ∀ d n, n < s.eventSeq d → s.eventOldestSeq d ≤ n →
    (s.pushed d)[n]? = some (s.queue d (n % inputEventCap))

structure Tied (s : Evdev) : Prop where
  inside : ∀ p, places ≤ p → s.files p = none
  counted : Counted (Finset.range places) s.links (fun i ↦ (s.states i).refs)
    (fun i ↦ (s.states i).used)
  file : ∀ p f, s.files p = some f → f.opened < s.opens ∧ (s.descs f.opened).dev = f.dev ∧
    f.inputState ≠ none
  shared : ∀ p q f g, s.files p = some f → s.files q = some g →
    (f.inputState = g.inputState ↔ f.opened = g.opened)

structure Inv (s : Evdev) : Prop extends Window s, Tied s where
  delivered : ∀ o < s.opens, s.Delivered (s.descs o)
  reader : ∀ p f i, s.files p = some f → f.inputState = some i →
    s.Reader (s.descs f.opened) (s.states i).seq

theorem place_lt (table : Fin 32) (fd : Fin 512) : place table fd < places := by
  have h₁ := table.2
  have h₂ := fd.2
  rw [places]
  simp only [place, maxFiles]
  omega

theorem Tied.lt (h : Tied s) (hf : s.files p = some f) : p < places := by
  by_contra hc
  rw [h.inside p (not_lt.1 hc)] at hf
  cases hf

theorem links_of_file (hf : s.files p = some f) : s.links p = f.inputState := by
  rw [links, hf]
  rfl

theorem Tied.used_of_link (h : Tied s) (hf : s.files p = some f) (hi : f.inputState = some i) :
    (s.states i).used = true :=
  h.counted.used_of_link (Finset.mem_range.2 (h.lt hf)) ((links_of_file hf).trans hi)

theorem Tied.inputFdSeq_eq (h : Tied s) (hf : s.files p = some f) (hi : f.inputState = some i) :
    s.inputFdSeq p = (s.states i).seq := by
  simp only [inputFdSeq, hf, hi, h.used_of_link hf hi, if_true]

theorem Delivered.mono {D : Description} (h : s.Delivered D) (hp : ∀ d, s.pushed d <+: s'.pushed d)
    (ho : ∀ d, s.eventOldestSeq d ≤ s'.eventOldestSeq d) : s'.Delivered D where
  increasing := h.increasing
  since := h.since
  pushed e he := by
    obtain ⟨hlt, heq⟩ := List.getElem?_eq_some_iff.1 (h.pushed e he)
    obtain ⟨l, hl⟩ := hp D.dev
    rw [← hl, List.getElem?_append_left hlt]
    exact h.pushed e he
  skipped n hn he := by
    obtain h₁ | h₁ | h₁ := h.skipped n hn he
    · exact .inl h₁
    · exact .inr (.inl h₁)
    · exact .inr (.inr (h₁.trans_le (ho D.dev)))

theorem Reader.mono {D : Description} (h : s.Reader D c) (hs : ∀ d, s.eventSeq d ≤ s'.eventSeq d) :
    s'.Reader D c where
  start_le := h.start_le
  le := h.le.trans (hs _)
  below := h.below
  covered n hn hc := by
    obtain h₁ | h₁ | h₁ := h.covered n hn hc
    · exact .inl h₁
    · exact .inr (.inl h₁)
    · refine .inr (.inr (h₁.trans_le ?_))
      have := hs D.dev
      rw [eventOldestSeq_eq, eventOldestSeq_eq]
      omega

theorem Window.pushEvent (h : Window s) (d : Dev) (e : InputEvent) : Window (s.pushEvent d e) := by
  have hlen := h.length
  constructor
  · intro d'
    by_cases hd : d' = d
    · subst hd
      simp [Evdev.pushEvent, hlen]
    · simp [Evdev.pushEvent, update_of_ne hd, hlen]
  · intro d' n hn ho
    rw [eventOldestSeq_eq] at ho
    by_cases hd : d' = d
    · subst hd
      simp only [Evdev.pushEvent, update_self] at hn ho ⊢
      by_cases hlast : n = s.eventSeq d'
      · rw [hlast, update_self, hlen, List.getElem?_append_right le_rfl]
        simp
      · have hlt : n < s.eventSeq d' := by omega
        have hslot : n % inputEventCap ≠ s.eventSeq d' % inputEventCap := by
          simp only [inputEventCap] at ho ⊢
          omega
        rw [update_of_ne hslot, List.getElem?_append_left (by rw [← hlen]; exact hlt)]
        refine h.queue d' n hlt ?_
        rw [eventOldestSeq_eq]
        omega
    · simp only [Evdev.pushEvent, update_of_ne hd] at hn ho ⊢
      refine h.queue d' n hn ?_
      rw [eventOldestSeq_eq]
      exact ho

theorem Inv.pushEvent (h : Inv s) (d : Dev) (e : InputEvent) : Inv (s.pushEvent d e) := by
  have hseq : ∀ d', s.eventSeq d' ≤ (s.pushEvent d e).eventSeq d' := by
    intro d'
    by_cases hd : d' = d
    · subst hd
      simp [Evdev.pushEvent]
    · simp [Evdev.pushEvent, update_of_ne hd]
  have hpushed : ∀ d', s.pushed d' <+: (s.pushEvent d e).pushed d' := by
    intro d'
    by_cases hd : d' = d
    · subst hd
      simp [Evdev.pushEvent]
    · simp [Evdev.pushEvent, update_of_ne hd]
  refine { h.toWindow.pushEvent d e with
    inside := h.inside, counted := h.counted, file := h.file, shared := h.shared, delivered :=
      ?_, reader := ?_ }
  · intro o ho
    refine (h.delivered o ho).mono hpushed fun d' ↦ ?_
    have := hseq d'
    rw [eventOldestSeq_eq, eventOldestSeq_eq]
    omega
  · exact fun p f i hf hi ↦ (h.reader p f i hf hi).mono hseq

theorem links_update (s : Evdev) (p : ℕ) (a : Option File) :
    (fun q ↦ (update s.files p a q).bind File.inputState) =
      update s.links p (a.bind File.inputState) := by
  funext q
  by_cases hq : q = p
  · subst hq
    simp
  · simp [update_of_ne hq, links]

theorem states_update {α : Type} (g : OpenState → α) (s : Evdev) (i : ℕ) (st : OpenState) :
    (fun j ↦ g (update s.states i st j)) = update (fun j ↦ g (s.states j)) i (g st) := by
  funext j
  by_cases hj : j = i
  · rw [hj, update_self, update_self]
  · rw [update_of_ne hj, update_of_ne hj]

theorem used_update (s : Evdev) (i : ℕ) (st : OpenState) (h : st.used = (s.states i).used) :
    (fun j ↦ (update s.states i st j).used) = fun j ↦ (s.states j).used := by
  rw [states_update OpenState.used, h, update_eq_self]

theorem Tied.refs_lt (h : Tied s) (i : ℕ) : (s.states i).refs < 2 ^ 32 - 1 := by
  have hle := h.counted.refs_le i
  have hplaces : places = 16384 := by rw [places, maxFiles]
  rw [Finset.card_range, hplaces] at hle
  omega

theorem inputStateAlloc_some {seq : ℕ} (h : s.inputStateAlloc d seq = (s', some i)) :
    (s.states i).used = false ∧
      s' = { s with states := update s.states i ⟨true, 1, some d, seq⟩ } := by
  unfold inputStateAlloc at h
  split at h
  · cases h
  · next j hj =>
    obtain ⟨hs, hji⟩ := Prod.mk.inj h
    obtain rfl := Option.some.inj hji
    exact ⟨s.freeState_some hj, hs.symm⟩

theorem inputStateAlloc_none {seq : ℕ} (h : s.inputStateAlloc d seq = (s', none)) : s' = s := by
  unfold inputStateAlloc at h
  split at h
  · cases h
    rfl
  · cases h

theorem Tied.unused (h : Tied s) (hi : (s.states i).used = false) (hf : s.files p = some f) :
    f.inputState ≠ some i := by
  intro hc
  rw [h.used_of_link hf hc] at hi
  cases hi

theorem Inv.openDev (h : Inv s) (hp : s.files p = none) (hlt : p < places) (d : Dev) (flags : ℕ) :
    Inv (s.openDev p d flags) := by
  rw [Evdev.openDev]
  split
  · next s₁ ha =>
    rw [inputStateAlloc_none ha]
    exact h
  next s₁ i ha =>
  obtain ⟨hunused, rfl⟩ := inputStateAlloc_some ha
  have hmem : p ∈ Finset.range places := Finset.mem_range.2 hlt
  have hfiles : ∀ q g, update s.files p (some ⟨d, flags, some i, s.opens⟩) q = some g →
      q = p ∧ g = ⟨d, flags, some i, s.opens⟩ ∨ q ≠ p ∧ s.files q = some g := by
    intro q g hg
    by_cases hq : q = p
    · subst hq
      rw [update_self] at hg
      exact .inl ⟨rfl, (Option.some.inj hg).symm⟩
    · rw [update_of_ne hq] at hg
      exact .inr ⟨hq, hg⟩
  have hold : ∀ q g, s.files q = some g → g.opened ≠ s.opens := fun q g hg ↦ (h.file q g hg).1.ne
  constructor
  · exact ⟨h.length, h.queue⟩
  · constructor
    case inside =>
      intro q hq
      have hne : q ≠ p := by
        rintro rfl
        omega
      change update s.files p _ q = none
      rw [update_of_ne hne]
      exact h.inside q hq
    case counted =>
      have hnone : s.links p = none := by
        rw [links, hp]
        rfl
      change Counted _ (fun q ↦ (update s.files p _ q).bind File.inputState)
        (fun j ↦ (update s.states i _ j).refs)
        fun j ↦ (update s.states i _ j).used
      rw [links_update, states_update OpenState.refs, states_update OpenState.used]
      exact h.counted.fresh hmem hnone hunused
    case file =>
      intro q g hg
      obtain ⟨rfl, rfl⟩ | ⟨hq, hg⟩ := hfiles q g hg
      · exact ⟨Nat.lt_succ_self _, by simp, by simp⟩
      · obtain ⟨h₁, h₂, h₃⟩ := h.file q g hg
        refine ⟨h₁.trans (Nat.lt_succ_self _), ?_, h₃⟩
        change (update s.descs s.opens _ g.opened).dev = g.dev
        rwa [update_of_ne h₁.ne]
    case shared =>
      intro q q' g g' hg hg'
      obtain ⟨rfl, rfl⟩ | ⟨hq, hq₁⟩ := hfiles q g hg <;> obtain ⟨rfl, rfl⟩ | ⟨hq', hq₂⟩ :=
        hfiles q' g' hg'
      · simp
      · exact ⟨fun hc ↦ absurd hc.symm (h.unused hunused hq₂),
          fun hc ↦ absurd hc.symm (hold _ _ hq₂)⟩
      · exact ⟨fun hc ↦ absurd hc (h.unused hunused hq₁), fun hc ↦ absurd hc (hold _ _ hq₁)⟩
      · exact h.shared q q' g g' hq₁ hq₂
  case delivered =>
    intro o ho
    by_cases hlast : o = s.opens
    · subst hlast
      change Delivered _ (update s.descs s.opens _ s.opens)
      rw [update_self]
      exact ⟨.nil, nofun, nofun, fun n _ ⟨e, he, _⟩ ↦ nomatch he⟩
    · change Delivered _ (update s.descs s.opens _ o)
      rw [update_of_ne hlast]
      exact (h.delivered o (Nat.lt_of_le_of_ne (Nat.lt_succ_iff.1 ho) hlast)).mono
        (fun _ ↦ List.prefix_rfl) fun _ ↦ le_rfl
  case reader =>
    intro q g j hg hj
    obtain ⟨rfl, rfl⟩ | ⟨hq, hq₁⟩ := hfiles q g hg
    · cases hj
      change Reader _ (update s.descs s.opens _ s.opens) (update s.states i _ i).seq
      rw [update_self, update_self]
      exact ⟨le_rfl, le_rfl, nofun, fun n h₁ h₂ ↦ absurd h₁ (not_le.2 h₂)⟩
    · have hne : j ≠ i := by
        rintro rfl
        exact h.unused hunused hq₁ hj
      change Reader _ (update s.descs s.opens _ g.opened) (update s.states i _ j).seq
      rw [update_of_ne (hold q g hq₁), update_of_ne hne]
      exact (h.reader q g j hq₁ hj).mono fun _ ↦ le_rfl

structure Retied (s s' : Evdev) : Prop where
  queue : s'.queue = s.queue
  eventSeq : s'.eventSeq = s.eventSeq
  pushed : s'.pushed = s.pushed
  opens : s'.opens = s.opens
  descs : s'.descs = s.descs
  copies : ∀ q g, s'.files q = some g → ∃ q₀, s.files q₀ = some g
  seq : ∀ i, (s'.states i).used = true → (s'.states i).seq = (s.states i).seq

theorem Inv.retied (h : Inv s) (hr : Retied s s') (hin : ∀ p, places ≤ p → s'.files p = none)
    (hcounted : Counted (Finset.range places) s'.links (fun i ↦ (s'.states i).refs)
      (fun i ↦ (s'.states i).used)) :
    Inv s' := by
  have hold : ∀ d, s'.eventOldestSeq d = s.eventOldestSeq d := fun d ↦ by
    rw [eventOldestSeq, eventOldestSeq, hr.eventSeq]
  have htied : Tied s' := by
    refine ⟨hin, hcounted, fun q g hg ↦ ?_, fun q q' g g' hg hg' ↦ ?_⟩
    · obtain ⟨q₀, hq₀⟩ := hr.copies q g hg
      rw [hr.opens, hr.descs]
      exact h.file q₀ g hq₀
    · obtain ⟨q₀, hq₀⟩ := hr.copies q g hg
      obtain ⟨q₁, hq₁⟩ := hr.copies q' g' hg'
      exact h.shared q₀ q₁ g g' hq₀ hq₁
  refine { htied with length := ?_, queue := ?_, delivered := ?_, reader := ?_ }
  · rw [hr.eventSeq, hr.pushed]
    exact h.length
  · intro d n hn ho
    rw [hr.eventSeq] at hn
    rw [hold] at ho
    rw [hr.pushed, hr.queue]
    exact h.queue d n hn ho
  · intro o ho
    rw [hr.opens] at ho
    rw [hr.descs]
    exact (h.delivered o ho).mono (fun d ↦ by rw [hr.pushed]) fun d ↦ (hold d).ge
  · intro q g i hg hi
    obtain ⟨q₀, hq₀⟩ := hr.copies q g hg
    rw [hr.descs, hr.seq i (htied.used_of_link hg hi)]
    exact (h.reader q₀ g i hq₀ hi).mono fun d ↦ by rw [hr.eventSeq]

theorem Inv.fdMarkClosed (h : Inv s) (p : ℕ) : Inv (s.fdMarkClosed p) := by
  rw [Evdev.fdMarkClosed]
  split
  · exact h
  next f hf =>
  obtain ⟨i, hi⟩ := Option.ne_none_iff_exists'.1 (h.file p f hf).2.2
  have hmem : p ∈ Finset.range places := Finset.mem_range.2 (h.lt hf)
  have hused := h.used_of_link hf hi
  have hlink : s.links p = some i := (links_of_file hf).trans hi
  have hcopies : ∀ q g, update s.files p none q = some g → ∃ q₀, s.files q₀ = some g := by
    intro q g hg
    by_cases hq : q = p
    · rw [hq, update_self] at hg
      cases hg
    · rw [update_of_ne hq] at hg
      exact ⟨q, hg⟩
  have hinside : ∀ q, places ≤ q → update s.files p none q = none := by
    intro q hq
    by_cases hqp : q = p
    · rw [hqp, update_self]
    · rw [update_of_ne hqp]
      exact h.inside q hq
  simp only [inputStateRelease, hi, hused, if_neg (by decide : ¬ true = false)]
  by_cases hone : 1 < (s.states i).refs
  · rw [if_pos hone]
    refine h.retied ⟨rfl, rfl, rfl, rfl, rfl, hcopies, fun j _ ↦ ?_⟩ hinside ?_
    · change (update s.states i _ j).seq = (s.states j).seq
      by_cases hj : j = i
      · rw [hj, update_self]
      · rw [update_of_ne hj]
    · change Counted _ (fun q ↦ (update s.files p none q).bind File.inputState)
        (fun j ↦ (update s.states i _ j).refs) fun j ↦ (update s.states i _ j).used
      rw [links_update, states_update OpenState.refs, used_update s i _ hused.symm]
      exact h.counted.unlink hmem hlink hone
  · rw [if_neg hone]
    refine h.retied ⟨rfl, rfl, rfl, rfl, rfl, hcopies, fun j hj ↦ ?_⟩ hinside ?_
    · change (update s.states i _ j).used = true at hj
      change (update s.states i _ j).seq = (s.states j).seq
      by_cases hji : j = i
      · rw [hji, update_self] at hj
        cases hj
      · rw [update_of_ne hji]
    · change Counted _ (fun q ↦ (update s.files p none q).bind File.inputState)
        (fun j ↦ (update s.states i _ j).refs) fun j ↦ (update s.states i _ j).used
      rw [links_update, states_update OpenState.refs, states_update OpenState.used]
      exact h.counted.unlink_last hmem hlink hone

theorem Inv.copyFd (h : Inv s) {src dst : ℕ} (hdst : s.files dst = none) (hlt : dst < places) :
    Inv (s.copyFd src dst) := by
  rw [Evdev.copyFd]
  split
  · exact h
  next f hf =>
  obtain ⟨i, hi⟩ := Option.ne_none_iff_exists'.1 (h.file src f hf).2.2
  have hmem : dst ∈ Finset.range places := Finset.mem_range.2 hlt
  have hused := h.used_of_link hf hi
  have hnone : s.links dst = none := by
    rw [links, hdst]
    rfl
  simp only [inputStateRetain, hi, hused, h.refs_lt i, and_self, if_true]
  refine h.retied ⟨rfl, rfl, rfl, rfl, rfl, fun q g hg ↦ ?_, fun j _ ↦ ?_⟩ (fun q hq ↦ ?_) ?_
  · change update s.files dst (some f) q = some g at hg
    by_cases hq : q = dst
    · rw [hq, update_self] at hg
      cases hg
      exact ⟨src, hf⟩
    · rw [update_of_ne hq] at hg
      exact ⟨q, hg⟩
  · change (update s.states i _ j).seq = (s.states j).seq
    by_cases hj : j = i
    · rw [hj, update_self]
    · rw [update_of_ne hj]
  · change update s.files dst (some f) q = none
    have hne : q ≠ dst := by
      rintro rfl
      omega
    rw [update_of_ne hne]
    exact h.inside q hq
  · change Counted _ (fun q ↦ (update s.files dst (some f) q).bind File.inputState)
      (fun j ↦ (update s.states i _ j).refs) fun j ↦ (update s.states i _ j).used
    rw [links_update, states_update OpenState.refs, used_update s i _ hused.symm,
      Option.bind_some, hi]
    exact h.counted.link hmem hnone hused

end Evdev

end YabroOS.Input
