import YabroOS.Shell.Dispatch
import Mathlib.Order.Lattice.Nat
import YabroOS.Shell.RunLine
import Mathlib.Data.Finset.Insert
import Mathlib.Data.Finset.Max

namespace YabroOS.Shell

/-- The shell: its open descriptors, what descriptor 1 refers to, its children that nothing has
waited for, the foreground group of the terminal, its own group, whether `shell_terminal_init` has
run, which it has not for `sh -c`, and `last_status`. -/
structure Session where
  fds : Finset ℕ
  stdout : ℕ
  children : Finset ℕ
  foreground : ℕ
  group : ℕ
  terminal : Bool
  status : ℤ

/-- What the kernel answers to the shell: the id of a new process, which is in use neither for a
child nor for a group of the terminal, and which calls of a stage succeed. `opens` is for the input
and, with `true`, for the output. `exit` is the status of the child of a stage. -/
structure Kernel where
  pid : Session → ℕ
  pid_pos : ∀ s, 0 < pid s
  pid_new : ∀ s, pid s ∉ s.children
  pid_foreground : ∀ s, pid s ≠ s.foreground
  pid_group : ∀ s, pid s ≠ s.group
  pipes : ℕ → Bool
  opens : ℕ → Bool → Bool
  dups : Bool
  forks : ℕ → Bool
  exit : ℕ → ℕ

def findFreeFd (fds : Finset ℕ) : ℕ := Nat.find (Infinite.exists_notMem_finset fds)

namespace Session

def shellPgid (s : Session) : ℕ := if s.terminal then s.group else 0

def closeAll (fds : Finset ℕ) (l : List ℕ) : Finset ℕ := l.foldl Finset.erase fds

def hasInput (p : Pipe) : Bool := p.input ≠ []

def hasOutput (p : Pipe) : Bool := p.output ≠ [] ∨ p.append ≠ []

/-- A redirection of stage `i`: none where it fails, and no descriptor where there is none. -/
def redirect (k : Kernel) (i : ℕ) (out wanted : Bool) (fds : Finset ℕ) :
    Option (Finset ℕ × List ℕ) :=
  if wanted = false then some (fds, [])
  else if k.opens i out then some (insert (findFreeFd fds) fds, [findFreeFd fds])
  else none

def runParent (k : Kernel) (s : Session) (p : Pipe) (rc : ℤ) : Session :=
  match redirect k 0 false (hasInput p) s.fds with
  | none => { s with status := 1 }
  | some (fds, ins) =>
    match redirect k 0 true (hasOutput p) fds with
    | none => { s with fds := closeAll fds ins, status := 1 }
    | some (fds, outs) =>
      if outs = [] then { s with fds := closeAll fds ins, status := rc }
      else if k.dups then
        let saved := findFreeFd fds
        let inside := { s with fds := insert saved fds, stdout := outs.headD s.stdout }
        { inside with
          fds := closeAll inside.fds (saved :: outs ++ ins), stdout := s.stdout, status := rc }
      else { s with fds := closeAll fds (outs ++ ins), status := 1 }

/-- The variables of the loop over the stages: `prev`, `job_pgid` and the results of `launch`. -/
structure Running where
  shell : Session
  prev : ℕ
  job : ℕ
  pids : List (Option ℕ)

def Running.prevs (r : Running) : List ℕ := if r.prev = 0 then [] else [r.prev]

def Running.launch (r : Running) (k : Kernel) (i : ℕ) (fds : Finset ℕ) (rd : Option ℕ) : Running :=
  let launched := if k.forks i then some (k.pid r.shell) else none
  let leader := if r.job = 0 then launched else none
  { shell := { r.shell with
      fds := fds
      children := if k.forks i then insert (k.pid r.shell) r.shell.children else r.shell.children
      foreground := leader.getD r.shell.foreground }
    prev := rd.getD r.prev
    job := leader.getD r.job
    pids := r.pids ++ [launched] }

def stageStep (k : Kernel) (i : ℕ) (last : Bool) (p : Pipe) (r : Running) :
    Except Session Running :=
  if !last && !k.pipes i then .error r.shell
  else
    let rd := findFreeFd r.shell.fds
    let wr := findFreeFd (insert rd r.shell.fds)
    let ends := if last then [] else [rd, wr]
    let fds := if last then r.shell.fds else insert wr (insert rd r.shell.fds)
    match redirect k i false (hasInput p) fds with
    | none => .error { r.shell with fds := closeAll fds (ends ++ r.prevs) }
    | some (fds, ins) =>
      match redirect k i true (hasOutput p) fds with
      | none => .error { r.shell with fds := closeAll fds (ins ++ ends ++ r.prevs) }
      | some (fds, outs) =>
        let fds := closeAll fds (ins ++ outs ++ r.prevs ++ if last then [] else [wr])
        .ok (r.launch k i fds (if last then none else some rd))

def runStages (k : Kernel) : ℕ → List Pipe → Running → Except Session Running
  | _, [], r => .ok r
  | i, p :: ps, r =>
    match stageStep k i ps.isEmpty p r with
    | .error s => .error s
    | .ok r => runStages k (i + 1) ps r

def finish (k : Kernel) (r : Running) : Session :=
  let launched := r.pids.getLast?.join.isSome
  let foreground := if launched then r.job else r.shell.foreground
  { r.shell with
    fds := closeAll r.shell.fds r.prevs
    children := r.shell.children.filter fun pid ↦ some pid ∉ r.pids
    status := if launched then k.exit (r.pids.length - 1) else r.shell.status
    foreground := if 0 < r.shell.shellPgid then r.shell.shellPgid else foreground }

def pipeline (k : Kernel) (s : Session) (stages : List Pipe) : Session :=
  match runStages k 0 stages ⟨s, 0, 0, []⟩ with
  | .error s => s
  | .ok r => finish k r

def runSimple (k : Kernel) (s : Session) (rc : ℤ) : List Pipe → Session
  | [] => s
  | [p] =>
    if p.words.headD [] ∈ parentNames ∧ (hasInput p || hasOutput p) then runParent k s p rc
    else if p.words.headD [] ∈ isBuiltinNames ∧ (hasInput p || hasOutput p) = false then
      { s with status := rc }
    else pipeline k s [p]
  | p :: q :: ps => pipeline k s (p :: q :: ps)

/-- What must hold after a call; `bad` says that a stage could not be set up. -/
structure Clean (bad : Prop) (s s' : Session) : Prop where
  fds : s'.fds = s.fds
  stdout : s'.stdout = s.stdout
  waited : s'.children ⊆ s.children
  foreground : s'.foreground = s.foreground ∨ s'.foreground = s.group
  status : bad → s'.status ≠ 0

def openFails (k : Kernel) (i : ℕ) (p : Pipe) : Bool :=
  (hasInput p && !k.opens i false) || (hasOutput p && !k.opens i true)

def stageFails (k : Kernel) : ℕ → List Pipe → Bool
  | _, [] => false
  | i, p :: ps =>
    (!ps.isEmpty && !k.pipes i) || openFails k i p || !k.forks i || stageFails k (i + 1) ps

/-- When the stages from `i` on end well. No child may be running where a pipe or a file is refused,
a pipe may only be refused to the first stage, and the status has to be there already; a refused
fork is hidden by the status of the last stage. Where `shell_pgid` is not set nothing takes the
terminal back, and where descriptor 0 is closed it becomes the end of a pipe that is not closed
again. `launched` and `refused` say whether a fork has succeeded and failed before. -/
def Tidy (k : Kernel) (s : Session) : ℕ → List Pipe → Bool → Bool → Prop
  | _, [], _, _ => True
  | i, p :: ps, launched, refused =>
    if !ps.isEmpty && !k.pipes i then launched = false ∧ i = 0 ∧ s.status ≠ 0
    else if openFails k i p then launched = false ∧ s.status ≠ 0
    else if ps.isEmpty then
      (0 < s.shellPgid ∨ (launched || k.forks i) = false) ∧
        ((refused || !k.forks i) = true → (if k.forks i then (k.exit i : ℤ) else s.status) ≠ 0)
    else 0 ∈ s.fds ∧ Tidy k s (i + 1) ps (launched || k.forks i) (refused || !k.forks i)

section Proofs

variable {k : Kernel} {s : Session} {r : Running} {p : Pipe} {i x : ℕ} {fds : Finset ℕ}

theorem findFreeFd_closed (fds : Finset ℕ) : findFreeFd fds ∉ fds :=
  Nat.find_spec (Infinite.exists_notMem_finset fds)

theorem findFreeFd_eq_zero (h : 0 ∉ fds) : findFreeFd fds = 0 := (Nat.find_eq_zero _).2 h

theorem findFreeFd_pos (h : 0 ∈ fds) : findFreeFd fds ≠ 0 := fun h0 ↦
  findFreeFd_closed fds (h0 ▸ h)

theorem mem_closeAll {l : List ℕ} : x ∈ closeAll fds l ↔ x ∈ fds ∧ x ∉ l := by
  induction l generalizing fds with
  | nil => simp [closeAll]
  | cons a l ih =>
    have hfold : closeAll fds (a :: l) = closeAll (fds.erase a) l := rfl
    rw [hfold, ih, Finset.mem_erase, List.mem_cons]
    tauto

theorem redirect_cases (k : Kernel) (i : ℕ) (out wanted : Bool) (fds : Finset ℕ) :
    (redirect k i out wanted fds = none ∧ (wanted && !k.opens i out) = true) ∨
      ∃ fds' l, redirect k i out wanted fds = some (fds', l) ∧ (wanted && !k.opens i out) = false ∧
        (∀ x, x ∈ fds' ↔ x ∈ fds ∨ x ∈ l) ∧ (∀ x ∈ l, x ∉ fds) ∧ (l = [] ↔ wanted = false) := by
  rw [redirect]
  cases wanted with
  | false => exact .inr ⟨fds, [], by simp, rfl, by simp, by simp, by simp⟩
  | true =>
    cases ho : k.opens i out with
    | true =>
      refine .inr ⟨insert (findFreeFd fds) fds, [findFreeFd fds], by simp, rfl, fun x ↦ ?_,
        fun x hx ↦ ?_, by simp⟩
      · rw [Finset.mem_insert, List.mem_singleton, or_comm]
      · rw [List.mem_singleton.1 hx]
        exact findFreeFd_closed fds
    | false => exact .inl ⟨by simp, rfl⟩

/-- The invariant of the loop before stage `i`: beside the descriptors of the call there is the read
end of the last pipe. -/
structure Inv (s : Session) (i : ℕ) (launched refused : Bool) (r : Running) : Prop where
  prev_iff : r.prev = 0 ↔ i = 0
  prev_new : r.prev ≠ 0 → r.prev ∉ s.fds
  mem_fds : ∀ x, x ∈ r.shell.fds ↔ x ∈ s.fds ∨ x ∈ r.prevs
  stdout : r.shell.stdout = s.stdout
  group : r.shell.group = s.group
  terminal : r.shell.terminal = s.terminal
  status : r.shell.status = s.status
  children_le : s.children ⊆ r.shell.children
  children_new : ∀ c ∈ r.shell.children, c ∈ s.children ∨ some c ∈ r.pids
  launched_iff : launched = true ↔ ∃ c ∈ r.shell.children, c ∉ s.children
  waiting : launched = false → r.job = 0 ∧ r.shell.foreground = s.foreground
  leader : launched = true →
    r.job ≠ 0 ∧ r.job ≠ s.foreground ∧ r.job ≠ s.group ∧ r.shell.foreground = r.job
  length : r.pids.length = i

variable {launched refused last : Bool} {bad : Prop}

theorem Running.mem_prevs : x ∈ r.prevs ↔ x = r.prev ∧ r.prev ≠ 0 := by
  rw [Running.prevs]
  split_ifs with h
  · simp [h]
  · simp [h]

theorem Inv.clean_error (hr : Inv s i launched refused r) (fds : Finset ℕ) (hbad : bad) :
    Clean bad s { r.shell with fds := fds } ↔ fds = s.fds ∧ launched = false ∧ s.status ≠ 0 := by
  constructor
  · intro h
    refine ⟨h.fds, ?_, hr.status ▸ h.status hbad⟩
    rw [← Bool.not_eq_true, hr.launched_iff]
    rintro ⟨c, hc, hnew⟩
    exact hnew (h.waited hc)
  · rintro ⟨h₁, h₂, h₃⟩
    refine ⟨h₁, hr.stdout, fun c hc ↦ ?_, .inl (hr.waiting h₂).2, fun _ ↦ ?_⟩
    · by_contra hnew
      rw [hr.launched_iff.2 ⟨c, hc, hnew⟩] at h₂
      cases h₂
    · rw [hr.status]
      exact h₃

/-- What a round comes to: a pipe or a file is refused, or there is a launch with the read end of
the new pipe beside the descriptors of the call, and the old one at the last stage. -/
theorem Inv.stage_cases (hr : Inv s i launched refused r) (last : Bool) (p : Pipe) :
    ((!last && !k.pipes i) = true ∧ stageStep k i last p r = .error r.shell) ∨
      ((!last && !k.pipes i) = false ∧ openFails k i p = true ∧
        stageStep k i last p r = .error { r.shell with fds := s.fds }) ∨
      ((!last && !k.pipes i) = false ∧ openFails k i p = false ∧
        ∃ fds, (∀ x, x ∈ fds ↔ x ∈ s.fds ∨ (last = false ∧ x = findFreeFd r.shell.fds)) ∧
          stageStep k i last p r =
            .ok (r.launch k i fds (if last then none else some (findFreeFd r.shell.fds)))) := by
  rw [stageStep]
  cases hpipe : !last && !k.pipes i with
  | true => exact .inl ⟨rfl, if_pos rfl⟩
  | false =>
    rw [if_neg Bool.false_ne_true]
    refine .inr ?_
    have hrd := findFreeFd_closed r.shell.fds
    have hwr := findFreeFd_closed (insert (findFreeFd r.shell.fds) r.shell.fds)
    dsimp only
    generalize findFreeFd (insert (findFreeFd r.shell.fds) r.shell.fds) = wr at *
    generalize findFreeFd r.shell.fds = rd at *
    have hstart : ∀ x, x ∈ (if last then r.shell.fds else insert wr (insert rd r.shell.fds)) ↔
        x ∈ r.shell.fds ∨ x ∈ if last then [] else [rd, wr] := by
      intro x
      cases last with
      | true => simp
      | false =>
        simp only [Bool.false_eq_true, if_false, Finset.mem_insert, List.mem_cons, List.not_mem_nil,
          or_false]
        tauto
    have hends : ∀ x ∈ (if last then [] else [rd, wr]), x ∉ r.shell.fds := by
      intro x hx
      cases last with
      | true => simp at hx
      | false =>
        simp only [Bool.false_eq_true, if_false, List.mem_cons, List.not_mem_nil, or_false] at hx
        rcases hx with rfl | rfl
        · exact hrd
        · exact fun h ↦ hwr (Finset.mem_insert_of_mem h)
    have hne : rd ≠ wr := fun h ↦ hwr (h ▸ Finset.mem_insert_self _ _)
    have hold : ∀ x ∈ r.prevs, x ∉ s.fds := by
      intro x hx
      obtain ⟨rfl, h⟩ := Running.mem_prevs.1 hx
      exact hr.prev_new h
    have hfds := hr.mem_fds
    generalize (if last then r.shell.fds else insert wr (insert rd r.shell.fds)) = start at *
    rw [openFails]
    rcases redirect_cases k i false (hasInput p) start
      with ⟨h, hb⟩ | ⟨fds, ins, h, hb, hmem, hnew, -⟩
    · rw [h, hb, Bool.true_or]
      have hclosed : closeAll start ((if last then [] else [rd, wr]) ++ r.prevs) = s.fds := by
        ext x
        rw [mem_closeAll, hstart, hfds, List.mem_append]
        have h₁ := hends x
        have h₂ := hold x
        rw [hfds] at h₁
        tauto
      rw [hclosed]
      exact .inl ⟨rfl, rfl, rfl⟩
    rw [h, hb, Bool.false_or]
    dsimp only
    rcases redirect_cases k i true (hasOutput p) fds with ⟨h', hb'⟩ | ⟨fds', outs, h', hb', hmem',
      hnew', -⟩
    · rw [h', hb']
      have hclosed : closeAll fds (ins ++ (if last then [] else [rd, wr]) ++ r.prevs) = s.fds := by
        ext x
        rw [mem_closeAll, hmem, hstart, hfds, List.mem_append, List.mem_append]
        have h₁ := hends x
        have h₂ := hold x
        have h₃ := hnew x
        rw [hfds] at h₁
        rw [hstart, hfds] at h₃
        tauto
      dsimp only
      rw [hclosed]
      exact .inl ⟨rfl, rfl, rfl⟩
    rw [h', hb']
    refine .inr ⟨rfl, rfl, _, fun x ↦ ?_, rfl⟩
    rw [mem_closeAll, hmem', hmem, hstart, hfds]
    simp only [List.mem_append]
    have h₁ := hnew x
    have h₂ := hnew' x
    have h₃ := hends x
    have h₄ := hold x
    rw [hstart, hfds] at h₁
    rw [hmem, hstart, hfds] at h₂
    rw [hfds] at h₃
    cases last with
    | true =>
      simp only [if_true, List.not_mem_nil, or_false, Bool.true_eq_false, false_and] at *
      tauto
    | false =>
      have h₅ : x = rd → x ≠ wr := fun h ↦ h ▸ hne
      simp only [Bool.false_eq_true, if_false, List.mem_cons, List.not_mem_nil, or_false, true_and]
        at h₁ h₂ h₃ ⊢
      clear hmem hmem' hstart hends hold hfds hnew hnew'
      constructor
      · rintro ⟨(((h | h) | h | h) | h) | h, hno⟩
        · exact .inl h
        · exact absurd (.inl (.inr h)) hno
        · exact .inr h
        · exact absurd (.inr h) hno
        · exact absurd (.inl (.inl (.inl h))) hno
        · exact absurd (.inl (.inl (.inr h))) hno
      · rintro (h | h)
        · refine ⟨.inl (.inl (.inl (.inl h))), ?_⟩
          rintro (((hx | hx) | hx) | hx)
          · exact h₁ hx (.inl (.inl h))
          · exact h₂ hx (.inl (.inl (.inl h)))
          · exact h₄ hx h
          · exact h₃ (.inr hx) (.inl h)
        · refine ⟨.inl (.inl (.inr (.inl h))), ?_⟩
          rintro (((hx | hx) | hx) | hx)
          · exact h₁ hx (.inr (.inl h))
          · exact h₂ hx (.inl (.inr (.inl h)))
          · exact h₃ (.inl h) (.inr hx)
          · exact h₅ h hx

theorem launch_children (hr : Inv s i launched refused r) (k : Kernel) (fds : Finset ℕ)
    (rd : Option ℕ) :
    s.children ⊆ (r.launch k i fds rd).shell.children ∧
      (∀ c ∈ (r.launch k i fds rd).shell.children, c ∈ s.children ∨
        some c ∈ (r.launch k i fds rd).pids) ∧
        ((launched || k.forks i) = true ↔
          ∃ c ∈ (r.launch k i fds rd).shell.children, c ∉ s.children) := by
  have hnew := k.pid_new r.shell
  unfold Running.launch
  dsimp only
  cases hfork : k.forks i with
  | true =>
    simp only [if_true, Bool.or_true, true_iff]
    refine ⟨hr.children_le.trans (Finset.subset_insert _ _),
      fun c hc ↦ ?_, k.pid r.shell, Finset.mem_insert_self _ _,
      fun h ↦ hnew (hr.children_le h)⟩
    rcases Finset.mem_insert.1 hc with rfl | hc
    · exact .inr (List.mem_append_right _ (List.mem_singleton_self _))
    · exact (hr.children_new c hc).imp_right fun h ↦ List.mem_append_left _ h
  | false =>
    simp only [Bool.false_eq_true, if_false, Bool.or_false]
    exact ⟨hr.children_le, fun c hc ↦ (hr.children_new c hc).imp_right fun h ↦
      List.mem_append_left _ h, hr.launched_iff⟩

theorem launch_terminal (hr : Inv s i launched refused r) (k : Kernel) (fds : Finset ℕ)
    (rd : Option ℕ) :
    ((launched || k.forks i) = false →
      (r.launch k i fds rd).job = 0 ∧ (r.launch k i fds rd).shell.foreground = s.foreground) ∧
    ((launched || k.forks i) = true →
      (r.launch k i fds rd).job ≠ 0 ∧ (r.launch k i fds rd).job ≠ s.foreground ∧
        (r.launch k i fds rd).job ≠ s.group ∧
          (r.launch k i fds rd).shell.foreground = (r.launch k i fds rd).job) := by
  unfold Running.launch
  dsimp only
  cases hlaunched : launched with
  | false =>
    obtain ⟨hjob, hforeground⟩ := hr.waiting hlaunched
    rw [if_pos hjob, Bool.false_or]
    cases hfork : k.forks i with
    | false => exact ⟨fun _ ↦ ⟨hjob, hforeground⟩, nofun⟩
    | true =>
      refine ⟨nofun, fun _ ↦ ⟨(k.pid_pos _).ne', ?_, ?_, rfl⟩⟩
      · exact hforeground ▸ k.pid_foreground r.shell
      · exact hr.group ▸ k.pid_group r.shell
  | true =>
    have hleader := hr.leader hlaunched
    rw [if_neg hleader.1, Bool.true_or]
    exact ⟨nofun, fun _ ↦ hleader⟩

theorem Inv.launch (hr : Inv s i launched refused r) (hin : 0 ∈ s.fds)
    (hfds : ∀ x, x ∈ fds ↔ x ∈ s.fds ∨ x = findFreeFd r.shell.fds) :
    Inv s (i + 1) (launched || k.forks i) (refused || !k.forks i)
      (r.launch k i fds (some (findFreeFd r.shell.fds))) := by
  obtain ⟨h₁, h₂, h₃⟩ := launch_children hr k fds (some (findFreeFd r.shell.fds))
  obtain ⟨h₄, h₅⟩ := launch_terminal hr k fds (some (findFreeFd r.shell.fds))
  have hclosed := findFreeFd_closed r.shell.fds
  have hpos : findFreeFd r.shell.fds ≠ 0 := findFreeFd_pos ((hr.mem_fds 0).2 (.inl hin))
  refine ⟨?_, fun _ ↦ ?_, fun x ↦ ?_, hr.stdout, hr.group, hr.terminal, hr.status, h₁, h₂, h₃,
    h₄, h₅, ?_⟩
  · exact iff_of_false hpos (Nat.succ_ne_zero i)
  · rw [hr.mem_fds] at hclosed
    exact fun h ↦ hclosed (.inl h)
  · rw [Running.mem_prevs]
    have : x ∈ (r.launch k i fds (some (findFreeFd r.shell.fds))).shell.fds ↔ x ∈ fds := Iff.rfl
    rw [this, hfds]
    exact or_congr_right ⟨fun h ↦ ⟨h, hpos⟩, fun h ↦ h.1⟩
  · rw [Running.launch, List.length_append, hr.length]
    rfl

def complete (k : Kernel) : Except Session Running → Session
  | .error s => s
  | .ok r => finish k r

theorem Inv.finish_clean (hr : Inv s i launched refused r) (hfds : ∀ x, x ∈ fds ↔ x ∈ s.fds) :
    Clean bad s (finish k (r.launch k i fds none)) ↔
      (0 < s.shellPgid ∨ (launched || k.forks i) = false) ∧
        (bad → (if k.forks i then (k.exit i : ℤ) else s.status) ≠ 0) := by
  obtain ⟨h₁, h₂, h₃⟩ := launch_children hr k fds none
  obtain ⟨h₄, h₅⟩ := launch_terminal hr k fds none
  have hlast : (r.launch k i fds none).pids.getLast?.join.isSome = k.forks i := by
    rw [Running.launch, List.getLast?_append_of_ne_nil _ (List.cons_ne_nil _ _)]
    cases k.forks i
    · rfl
    · rfl
  have hlen : (r.launch k i fds none).pids.length - 1 = i := by
    rw [Running.launch, List.length_append, hr.length]
    rfl
  have hstatus : (finish k (r.launch k i fds none)).status = if k.forks i then (k.exit i : ℤ)
      else s.status := by
    rw [finish, hlast, hlen, ← hr.status]
    rfl
  have hpgid : (r.launch k i fds none).shell.shellPgid = s.shellPgid := by
    have hg : (r.launch k i fds none).shell.group = s.group := hr.group
    have ht : (r.launch k i fds none).shell.terminal = s.terminal := hr.terminal
    rw [shellPgid, hg, ht, shellPgid]
  have hterminal : ((finish k (r.launch k i fds none)).foreground = s.foreground ∨
      (finish k (r.launch k i fds none)).foreground = s.group) ↔
        0 < s.shellPgid ∨ (launched || k.forks i) = false := by
    rw [finish, hpgid, hlast]
    dsimp only
    by_cases hset : 0 < s.shellPgid
    · rw [if_pos hset]
      refine iff_of_true (.inr ?_) (.inl hset)
      rw [shellPgid] at hset ⊢
      split_ifs at hset ⊢
      · rfl
      · exact absurd hset (Nat.lt_irrefl 0)
    · rw [if_neg hset, or_iff_right hset]
      -- without a group of the shell the terminal is left to the first child
      cases hl : launched || k.forks i with
      | false =>
        rw [(Bool.or_eq_false_iff.1 hl).2, if_neg Bool.false_ne_true]
        exact iff_of_true (.inl (h₄ hl).2) rfl
      | true =>
        obtain ⟨-, hforeground, hgroup, hjob⟩ := h₅ hl
        rw [hjob, ite_self]
        exact iff_of_false (not_or.2 ⟨hforeground, hgroup⟩) nofun
  constructor
  · intro h
    refine ⟨hterminal.1 h.foreground, fun hbad ↦ ?_⟩
    rw [← hstatus]
    exact h.status hbad
  · rintro ⟨hset, h⟩
    refine ⟨?_, hr.stdout, fun c hc ↦ ?_, hterminal.2 hset, fun hbad ↦ by rw [hstatus]; exact h hbad⟩
    · ext x
      have hmem : x ∈ (finish k (r.launch k i fds none)).fds ↔ x ∈ fds ∧ x ∉ r.prevs := mem_closeAll
      rw [hmem, hfds]
      refine ⟨fun h ↦ h.1, fun hx ↦ ⟨hx, fun hp ↦ ?_⟩⟩
      obtain ⟨rfl, hne⟩ := Running.mem_prevs.1 hp
      exact hr.prev_new hne hx
    · obtain ⟨hc, hno⟩ := Finset.mem_filter.1 hc
      exact (h₂ c hc).resolve_right hno

/-- A round does not close descriptor 0: `prev` stands for none where it is 0, and what the round
opens is another one. -/
theorem stageStep_zero (h : 0 ∈ r.shell.fds) (last : Bool) (p : Pipe) :
    (∀ s', stageStep k i last p r = .error s' → 0 ∈ s'.fds) ∧
      ∀ r', stageStep k i last p r = .ok r' → 0 ∈ r'.shell.fds := by
  have hprevs : 0 ∉ r.prevs := fun hp ↦ (Running.mem_prevs.1 hp).2 (Running.mem_prevs.1 hp).1.symm
  have hrd := findFreeFd_pos h
  have hwr := findFreeFd_pos (Finset.mem_insert_of_mem (b := findFreeFd r.shell.fds) h)
  rw [stageStep]
  by_cases hpipe : (!last && !k.pipes i) = true
  · rw [if_pos hpipe]
    exact ⟨fun s' hs ↦ Except.error.inj hs ▸ h, nofun⟩
  rw [if_neg hpipe]
  dsimp only
  generalize findFreeFd (insert (findFreeFd r.shell.fds) r.shell.fds) = wr at *
  generalize findFreeFd r.shell.fds = rd at *
  have hends : 0 ∉ if last then [] else [rd, wr] := by
    split_ifs
    · exact List.not_mem_nil
    · simp [hrd.symm, hwr.symm]
  have hstart : 0 ∈ if last then r.shell.fds else insert wr (insert rd r.shell.fds) := by
    split_ifs
    · exact h
    · exact Finset.mem_insert_of_mem (Finset.mem_insert_of_mem h)
  generalize (if last then r.shell.fds else insert wr (insert rd r.shell.fds)) = start at *
  rcases redirect_cases k i false (hasInput p) start with ⟨hi, -⟩ | ⟨fds, ins, hi, -, hmem, hnew, -⟩
  · rw [hi]
    refine ⟨fun s' hs ↦ ?_, nofun⟩
    rw [← Except.error.inj hs, mem_closeAll, List.mem_append, not_or]
    exact ⟨hstart, hends, hprevs⟩
  have hins : 0 ∉ ins := fun h0 ↦ hnew 0 h0 hstart
  have hfds : 0 ∈ fds := (hmem 0).2 (.inl hstart)
  rw [hi]
  dsimp only
  rcases redirect_cases k i true (hasOutput p) fds
    with ⟨ho, -⟩ | ⟨fds', outs, ho, -, hmem', hnew', -⟩
  · rw [ho]
    refine ⟨fun s' hs ↦ ?_, nofun⟩
    rw [← Except.error.inj hs, mem_closeAll]
    simp only [List.mem_append, not_or]
    exact ⟨hfds, ⟨hins, hends⟩, hprevs⟩
  · rw [ho]
    refine ⟨nofun, fun r' hr' ↦ ?_⟩
    have houts : 0 ∉ outs := fun h0 ↦ hnew' 0 h0 hfds
    have hlast : 0 ∉ if last then [] else [wr] := by
      split_ifs
      · exact List.not_mem_nil
      · simp [hwr.symm]
    rw [← Except.ok.inj hr']
    refine mem_closeAll.2 ⟨(hmem' 0).2 (.inl hfds), ?_⟩
    simp only [List.mem_append, not_or]
    exact ⟨⟨⟨hins, houts⟩, hprevs⟩, hlast⟩

theorem complete_zero (h : 0 ∈ r.shell.fds) (stages : List Pipe) :
    0 ∈ (complete k (runStages k i stages r)).fds := by
  induction stages generalizing i r with
  | nil =>
    exact mem_closeAll.2 ⟨h, fun hp ↦ (Running.mem_prevs.1 hp).2 (Running.mem_prevs.1 hp).1.symm⟩
  | cons p ps ih =>
    obtain ⟨herror, hok⟩ := @stageStep_zero k r i h ps.isEmpty p
    rw [runStages]
    cases hstep : stageStep k i ps.isEmpty p r with
    | error s' => exact herror s' hstep
    | ok r' => exact ih (hok r' hstep)

theorem Inv.run (hr : Inv s i launched refused r) {stages : List Pipe} (hne : stages ≠ []) :
    Clean ((refused || stageFails k i stages) = true) s (complete k (runStages k i stages r)) ↔
      Tidy k s i stages launched refused := by
  induction stages generalizing i launched refused r with
  | nil => exact absurd rfl hne
  | cons p ps ih =>
    rw [runStages, Tidy, stageFails]
    rcases hr.stage_cases ps.isEmpty p with ⟨hpipe, hstep⟩ | ⟨hpipe, hopen, hstep⟩ | ⟨hpipe, hopen,
      fds, hfds, hstep⟩
    · rw [hstep, hpipe, if_pos rfl]
      refine (hr.clean_error r.shell.fds (by simp)).trans ?_
      have hsame : r.shell.fds = s.fds ↔ i = 0 := by
        rw [← hr.prev_iff]
        constructor
        · intro h
          by_contra hprev
          refine hr.prev_new hprev ?_
          rw [← h, hr.mem_fds]
          exact .inr (Running.mem_prevs.2 ⟨rfl, hprev⟩)
        · intro h
          ext x
          rw [hr.mem_fds, Running.mem_prevs]
          exact ⟨fun hx ↦ hx.resolve_right fun hp ↦ hp.2 h, .inl⟩
      rw [hsame]
      tauto
    · rw [hstep, hpipe, hopen, if_neg Bool.false_ne_true, if_pos rfl]
      refine (hr.clean_error s.fds (by simp)).trans ?_
      exact ⟨fun h ↦ h.2, fun h ↦ ⟨rfl, h⟩⟩
    · rw [hstep, hpipe, hopen, if_neg Bool.false_ne_true, if_neg Bool.false_ne_true]
      cases ps with
      | nil =>
        have hlast : Clean ((refused || !k.forks i) = true) s (finish k (r.launch k i fds none)) ↔
            _ :=
          hr.finish_clean fun x ↦ by simpa using hfds x
        simpa [stageFails, complete, runStages] using hlast
      | cons q ps =>
        rw [if_neg (by simp)]
        by_cases hin : 0 ∈ s.fds
        · have hnext := hr.launch (k := k) hin fun x ↦ by simpa using hfds x
          have := ih hnext (List.cons_ne_nil _ _)
          rw [← this, and_iff_right hin]
          simp [Bool.or_assoc]
        -- the read end of the pipe is descriptor 0
        · refine iff_of_false (fun h ↦ hin ?_) fun h ↦ hin h.1
          have hclosed : 0 ∉ r.shell.fds := by
            rw [hr.mem_fds, Running.mem_prevs, not_or]
            exact ⟨hin, fun hp ↦ hp.2 hp.1.symm⟩
          have hzero : 0 ∈ fds := (hfds 0).2 (.inr ⟨rfl, (findFreeFd_eq_zero hclosed).symm⟩)
          rw [← h.fds]
          exact complete_zero (r := r.launch k i fds _) hzero (q :: ps)

end Proofs

variable {k : Kernel} {s : Session}

end Session

end YabroOS.Shell
