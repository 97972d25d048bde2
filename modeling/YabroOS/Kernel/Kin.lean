import YabroOS.Kernel.Family

namespace YabroOS

open Memory Function Lib Lib.Asm

namespace Kernel

variable {k k' k'' : Kernel} {c i j child : Slot} {d d' : Slot → Prop} {p p' : Prop}

/-- Ended tasks other than `c` leave; every other slot holds the task that it held, in the same
state. -/
def Reaps (c : Slot) (k k' : Kernel) : Prop :=
  ∀ i, (k'.tasks i).ident = (k.tasks i).ident ∧ (k'.tasks i).state = (k.tasks i).state ∨
    (k.tasks i).used = true ∧ (k.tasks i).state = .zombie ∧ i ≠ c ∧ (k'.tasks i).used = false

/-- The slot is free, or it holds a new child of `c` where the call makes tasks. -/
def Turned (c : Slot) (p : Prop) (k k' : Kernel) (i : Slot) : Prop :=
  (k'.tasks i).used = false ∨
    p ∧ i ≠ c ∧ (k'.tasks i).ppid = (k.tasks c).pid ∧ (k'.tasks i).state ≠ .zombie

/-- Every task stays in its slot unless it has ended, only the tasks in `d` end, and a slot that
becomes used holds a new child of `c`. -/
structure Kin (c : Slot) (d : Slot → Prop) (p : Prop) (k k' : Kernel) : Prop where
  kept : ∀ i, (k.tasks i).used = true →
    Task.Remains (d i) (k.tasks i) (k'.tasks i) ∨ (k.tasks i).state = .zombie ∧ i ≠ c ∧
      Turned c p k k' i
  fresh : ∀ i, (k.tasks i).used = false → Turned c p k k' i

theorem Remain.kin (h : Remain d k k') : Kin c d p k k' where
  kept i _ := .inl (h i)
  fresh i hi := .inl ((h i).used.trans hi)

theorem Kin.mono (h : Kin c d p k k') (hd : ∀ i, d i → d' i) (hp : p → p') : Kin c d' p' k k' where
  kept i hu := (h.kept i hu).imp (·.mono (hd i)) fun hk ↦
    ⟨hk.1, hk.2.1, hk.2.2.imp id fun ht ↦ ⟨hp ht.1, ht.2⟩⟩
  fresh i hu := (h.fresh i hu).imp id fun ht ↦ ⟨hp ht.1, ht.2⟩

theorem Reaps.of_tasks (h : k'.tasks = k.tasks) : Reaps c k k' := by
  intro i
  rw [h]
  exact .inl ⟨rfl, rfl⟩

theorem Reaps.pid (h : Reaps c k k') : (k'.tasks c).pid = (k.tasks c).pid :=
  (h c).elim (fun hc ↦ congrArg (·.2.1) hc.1) fun hc ↦ absurd rfl hc.2.2.1

theorem Reaps.trans (h : Reaps c k k') (h' : Reaps c k' k'') : Reaps c k k'' := by
  intro i
  rcases h i with ⟨hi, hs⟩ | ⟨hu, hz, hne, hgone⟩
  · rcases h' i with ⟨hi', hs'⟩ | ⟨hu', hz', hne, hgone⟩
    · exact .inl ⟨hi'.trans hi, hs'.trans hs⟩
    · exact .inr ⟨(congrArg Prod.fst hi).symm.trans hu', hs.symm.trans hz', hne, hgone⟩
  · refine .inr ⟨hu, hz, hne, ?_⟩
    rcases h' i with ⟨hi', -⟩ | ⟨-, -, -, hgone'⟩
    · exact (congrArg Prod.fst hi').trans hgone
    · exact hgone'

theorem Reaps.then (h : Reaps c k k') (h' : Kin c d p k' k'') : Kin c d p k k'' := by
  have hturn : ∀ i, Turned c p k' k'' i → Turned c p k k'' i := by
    intro i hi
    rw [Turned, ← h.pid]
    exact hi
  refine ⟨fun i hu ↦ ?_, fun i hu ↦ ?_⟩
  · rcases h i with ⟨hi, hs⟩ | ⟨-, hz, hne, hgone⟩
    · rcases h'.kept i ((congrArg Prod.fst hi).trans hu) with hi' | ⟨hz, hne, ht⟩
      · exact .inl ((Task.Remains.same hi hs).trans hi')
      · exact .inr ⟨hs.symm.trans hz, hne, hturn i ht⟩
    · exact .inr ⟨hz, hne, hturn i (h'.fresh i hgone)⟩
  · rcases h i with ⟨hi, -⟩ | ⟨hu', -⟩
    · exact hturn i (h'.fresh i ((congrArg Prod.fst hi).trans hu))
    · rw [hu] at hu'
      cases hu'

theorem Kin.then (h : Kin c d p k k') (h' : Remain d k' k'') (hd : p → ∀ i, i ≠ c → ¬ d i) :
    Kin c d p k k'' := by
  have hturn : ∀ i, Turned c p k k' i → Turned c p k k'' i := by
    rintro i (hu | ⟨hp, hne, hpp, hs⟩)
    · exact .inl ((h' i).used.trans hu)
    · exact .inr ⟨hp, hne, (h' i).ppid.trans hpp, fun hz ↦ ((h' i).ended hz).elim hs (hd hp i hne)⟩
  refine ⟨fun i hu ↦ ?_, fun i hu ↦ hturn i (h.fresh i hu)⟩
  rcases h.kept i hu with hk | ⟨hs, hne, ht⟩
  · exact .inl (hk.trans (h' i))
  · exact .inr ⟨hs, hne, hturn i ht⟩

theorem reap_tasks (k : Kernel) (hj : j ≠ i) : (k.reap i).tasks j = k.tasks j := by
  rw [reap, modifyTask_of_ne _ _ _ _ hj, taskReapResources_tasks k i hj]

theorem reap_used (k : Kernel) (i : Slot) : ((k.reap i).tasks i).used = false := by
  rw [reap, modifyTask_self]

theorem reap_reaps (hu : (k.tasks i).used = true) (hz : (k.tasks i).state = .zombie) (hne : i ≠ c) :
    Reaps c k (k.reap i) := by
  intro j
  by_cases hj : j = i
  · subst hj
    exact .inr ⟨hu, hz, hne, reap_used k j⟩
  · rw [reap_tasks k hj]
    exact .inl ⟨rfl, rfl⟩

theorem reaps_modifyTask (g : Task → Task) (h : ∀ t, (g t).ident = t.ident)
    (hs : ∀ t, (g t).state = t.state) : Reaps c k (k.modifyTask i g) := by
  intro j
  rw [modifyTask_apply]
  split_ifs
  · exact .inl ⟨h _, hs _⟩
  · exact .inl ⟨rfl, rfl⟩

theorem adoptCr3_reaps (f : SyscallFrame) : Reaps c k (k.adoptCr3 f) := by
  unfold adoptCr3
  split_ifs
  · exact .of_tasks rfl
  · have hvm : Reaps c k (k.vmmUserActivate f.userCr3).1 := .of_tasks rfl
    refine hvm.trans (reaps_modifyTask _ (fun t ↦ ?_) fun t ↦ ?_) <;> split_ifs <;> rfl

theorem reapChild_reaps (hp : k.Pids) : Reaps k.currentTask k k.reapChild := by
  unfold reapChild
  dsimp only
  split_ifs
  · split
    · next j hj =>
      obtain ⟨hu, hj⟩ := findTask_spec hj
      obtain ⟨-, hpp, hz⟩ := of_decide_eq_true hj
      refine (reap_reaps hu hz (hp.child_ne hu hpp)).trans ?_
      exact reaps_modifyTask (fun t ↦ { t with wait4ReapPid := -1 }) (fun _ ↦ rfl) fun _ ↦ rfl
    · exact reaps_modifyTask (fun t ↦ { t with wait4ReapPid := -1 }) (fun _ ↦ rfl) fun _ ↦ rfl
  · exact .of_tasks rfl

theorem prologue_reaps (hp : k.Pids) (f : SyscallFrame) : Reaps k.currentTask k (k.prologue f) := by
  have h₁ : Reaps k.currentTask k (k.adoptCr3 f) := adoptCr3_reaps f
  have hs := adoptCr3_stays k f
  have h₂ := reapChild_reaps (hs.pids hp)
  rw [hs.currentTask] at h₂
  unfold prologue
  dsimp only
  split_ifs
  · exact (h₁.trans h₂).trans (reaps_modifyTask _ (fun _ ↦ rfl) fun _ ↦ rfl)
  · exact h₁.trans h₂

theorem findTask_isSome (q : Task → Bool) (hu : (k.tasks i).used = true)
    (hq : q (k.tasks i) = true) : ∃ j, k.findTask q = some j := by
  refine Option.isSome_iff_exists.1 (List.find?_isSome.2 ⟨i, List.mem_finRange i, ?_⟩)
  rw [hu, hq]
  rfl

theorem reapChild_used (hp : k.Pids) (hu : (k.tasks i).used = true)
    (hz : (k.tasks i).state = .zombie) (hpp : (k.tasks i).ppid = k.current.pid)
    (hr : (k.tasks i).pid = k.current.wait4ReapPid) : (k.reapChild.tasks i).used = false := by
  unfold reapChild
  dsimp only
  rw [if_pos (hr ▸ hp.pos i hu)]
  obtain ⟨j, hj⟩ := findTask_isSome (fun t ↦ t.pid = k.current.wait4ReapPid ∧
    t.ppid = k.current.pid ∧
    t.state = .zombie) hu (decide_eq_true ⟨hr, hpp, hz⟩)
  rw [hj]
  obtain ⟨huj, hq⟩ := findTask_spec hj
  obtain rfl := hp.inj j i huj hu ((of_decide_eq_true hq).1.trans hr.symm)
  rw [modifyTask_apply]
  split_ifs
  · exact reap_used k j
  · exact reap_used k j

theorem prologue_used (hp : k.Pids) (f : SyscallFrame) (hu : (k.tasks i).used = true)
    (hz : (k.tasks i).state = .zombie) (hpp : (k.tasks i).ppid = k.current.pid)
    (hr : (k.tasks i).pid = k.current.wait4ReapPid) : ((k.prologue f).tasks i).used = false := by
  have hs := adoptCr3_stays k f
  have hfields : ∀ j, ((k.adoptCr3 f).tasks j).ident = (k.tasks j).ident ∧
      ((k.adoptCr3 f).tasks j).state = (k.tasks j).state ∧
      ((k.adoptCr3 f).tasks j).wait4ReapPid = (k.tasks j).wait4ReapPid := by
    intro j
    unfold adoptCr3
    split_ifs
    · exact ⟨rfl, rfl, rfl⟩
    · rw [modifyTask_apply]
      split_ifs <;> exact ⟨rfl, rfl, rfl⟩
  obtain ⟨hi, hst, -⟩ := hfields i
  obtain ⟨hc, -, hw⟩ := hfields k.currentTask
  have hgone : ((k.adoptCr3 f).reapChild.tasks i).used = false := by
    refine reapChild_used (hs.pids hp) ((congrArg Prod.fst hi).trans hu) (hst.trans hz) ?_ ?_
    · rw [current, hs.currentTask]
      exact (congrArg (·.2.2.1) hi).trans (hpp.trans (congrArg (·.2.1) hc).symm)
    · rw [current, hs.currentTask]
      exact (congrArg (·.2.1) hi).trans (hr.trans hw.symm)
  unfold prologue
  dsimp only
  split_ifs
  · exact (taskSave_remain (d := fun _ ↦ False) _ f i).used.trans hgone
  · exact hgone

theorem sysWait4_kin (hp : k.Pids) (f : SyscallFrame) (pid : ℤ) (status : UInt64) (options : ℤ) :
    Kin k.currentTask d p k (k.sysWait4 f pid status options).1 := by
  unfold sysWait4
  dsimp only
  split
  · exact (remain_of_tasks rfl).kin
  split
  · exact (remain_of_tasks rfl).kin
  · split
    · next j hj =>
      obtain ⟨hu, hj⟩ := findTask_spec hj
      obtain ⟨hpp, -, hz⟩ := of_decide_eq_true hj
      have hstore := storeStatus_tasks k status (k.tasks j).exitStatus
      generalize k.storeStatus status (k.tasks j).exitStatus = r at hstore ⊢
      obtain ⟨k₁, rc⟩ := r
      dsimp only at hstore ⊢
      have h₁ : Reaps k.currentTask k k₁ := .of_tasks hstore
      split_ifs
      · exact (remain_of_tasks hstore).kin
      · refine h₁.then (Reaps.then (reap_reaps (i := j) ?_ ?_ (hp.child_ne hu hpp)) (Remain.kin ?_))
        · rwa [hstore]
        · rwa [hstore]
        · exact modifyTask_remain _ _ (fun t ↦ t.sigPendingSet sigchld) fun _ ↦ .same rfl rfl
    · split_ifs
      · exact (remain_of_tasks rfl).kin
      · exact (wait4Block_remain k f pid status).kin

/-- A slot that was free holds a new child of `c`, which may be taken back already. -/
structure Fresh (c child : Slot) (k k' : Kernel) : Prop where
  ne : child ≠ c
  free : (k.tasks child).used = false
  others : ∀ j, j ≠ child → Task.Remains False (k.tasks j) (k'.tasks j)
  child : (k'.tasks child).used = false ∨ (k'.tasks child).ppid = (k.tasks c).pid ∧
    (k'.tasks child).state ≠ .zombie

theorem Fresh.kin (h : Fresh c child k k') : Kin c d True k k' where
  kept i hu := by
    refine .inl ((h.others i ?_).mono False.elim)
    rintro rfl
    rw [h.free] at hu
    cases hu
  fresh i hu := by
    by_cases hi : i = child
    · subst hi
      exact h.child.imp id fun hc ↦ ⟨trivial, h.ne, hc⟩
    · exact .inl ((h.others i hi).used.trans hu)

theorem Fresh.of_tasks (h : Fresh c child k k') (ht : k''.tasks = k'.tasks) :
    Fresh c child k k'' := by
  refine ⟨h.ne, h.free, fun j hj ↦ ?_, ?_⟩
  · rw [ht]
    exact h.others j hj
  · rw [ht]
    exact h.child

theorem Fresh.modify (h : Fresh c child k k') (g : Task → Task) (hg : ∀ t, (g t).used = false ∨
    ((g t).used = t.used ∧ (g t).ppid = t.ppid ∧ (t.state ≠ .zombie → (g t).state ≠ .zombie))) :
    Fresh c child k (k'.modifyTask child g) := by
  refine ⟨h.ne, h.free, fun j hj ↦ ?_, ?_⟩
  · rw [modifyTask_of_ne _ _ _ _ hj]
    exact h.others j hj
  · rw [modifyTask_self]
    rcases hg (k'.tasks child) with hu | ⟨hu, hpp, hs⟩
    · exact .inl hu
    · rcases h.child with hc | ⟨hc, hz⟩
      · exact .inl (hu.trans hc)
      · exact .inr ⟨hpp.trans hc, hs hz⟩

theorem Fresh.parent (h : Fresh c child k k') (g : Task → Task)
    (hg : ∀ t, Task.Remains False t (g t)) : Fresh c child k (k'.modifyTask c g) := by
  refine ⟨h.ne, h.free, fun j hj ↦ ?_, ?_⟩
  · have hparent : Remain (fun _ ↦ False) k' (k'.modifyTask c g) := modifyTask_remain k' c g hg
    exact (h.others j hj).trans (hparent j)
  · rw [modifyTask_of_ne _ _ _ _ h.ne]
    exact h.child

theorem Fresh.storePid (h : Fresh c child k k') (b : Bool) (addr : UInt64) :
    Fresh c child k (k'.storePid child b addr).1 := by
  simp only [Kernel.storePid]
  split_ifs
  · refine Fresh.modify (h.of_tasks ?_) (fun t ↦ { t with used := false }) fun _ ↦ .inl rfl
    rfl
  · exact h.of_tasks rfl
  · exact h

theorem Fresh.storePids (h : Fresh c child k k') (flags ptid ctid : UInt64) (pid : ℤ) :
    Fresh c child k (k'.storePids c child flags ptid ctid pid).1 := by
  have h₁ := h.storePid (decide (flags &&& cloneParentSettid ≠ 0)) ptid
  simp only [Kernel.storePids]
  split
  · next k₁ he =>
    rw [he] at h₁
    exact h₁
  · next k₁ he =>
    rw [he] at h₁
    have h₂ := h₁.storePid (decide (flags &&& cloneChildCleartid ≠ 0)) ctid
    split
    · next k₂ he' =>
      rw [he'] at h₂
      exact h₂
    · next k₂ he' =>
      rw [he'] at h₂
      exact h₂.parent (fun t ↦ t.setRax (ofInt pid)) fun _ ↦ .same rfl rfl

theorem spawn_fresh (f : SyscallFrame) (flags ctid : UInt64) (hne : child ≠ k.currentTask)
    (hfree : (k.tasks child).used = false) :
    Fresh k.currentTask child k (k.spawn child f flags ctid) := by
  refine ⟨hne, hfree, fun j hj ↦ ?_, .inr ⟨?_, ?_⟩⟩
  · have : (k.spawn child f flags ctid).tasks j = (k.taskSave f).tasks j := update_of_ne hj ..
    rw [this]
    exact taskSave_remain (d := fun _ ↦ False) k f j
  · have : ((k.spawn child f flags ctid).tasks child).ppid = (k.taskSave f).current.pid := by
      simp [spawn, Task.cloned]
    rw [this]
    exact (taskSave_stays k f).pid
  · simp [spawn, Task.cloned]

theorem sysClone_fresh (hu : (k.tasks k.currentTask).used = true) (f : SyscallFrame)
    (flags stack ptid ctid tls : UInt64) (b : Bool) :
    (k.sysClone f flags stack ptid ctid tls b).1 = k ∨
      ∃ child, Fresh k.currentTask child k (k.sysClone f flags stack ptid ctid tls b).1 := by
  simp only [sysClone]
  split
  · exact .inl rfl
  · split
    · exact .inl rfl
    · next child hchild =>
      have hfree : (k.tasks child).used = false := by simpa using List.find?_some hchild
      have hne : child ≠ k.currentTask := by
        rintro rfl
        rw [hu] at hfree
        cases hfree
      have h₁ := spawn_fresh f flags ctid hne hfree
      refine .inr ⟨child, ?_⟩
      split
      · exact h₁.modify (fun t ↦ { t with used := false }) fun _ ↦ .inl rfl
      · next io hio =>
        have h₂ : Fresh k.currentTask child k ((k.spawn child f flags ctid).setIo io) :=
          h₁.of_tasks rfl
        refine (h₂.modify (childStart flags stack tls) fun t ↦ .inr ?_).storePids flags ptid ctid
          k.nextPid
        unfold childStart
        dsimp only
        split_ifs <;> exact ⟨rfl, rfl, id⟩

theorem sysClone_kin (hu : (k.tasks k.currentTask).used = true) (f : SyscallFrame)
    (flags stack ptid ctid tls : UInt64) (b : Bool) :
    Kin k.currentTask d True k (k.sysClone f flags stack ptid ctid tls b).1 := by
  rcases sysClone_fresh hu f flags stack ptid ctid tls b with h | ⟨child, h⟩
  · rw [h]
    exact (remain_of_tasks rfl).kin
  · exact h.kin

theorem Fresh.eq_child (h : Fresh c child k k') (hp : k.Pids) (hu : (k'.tasks i).used = true)
    (hpid : (k'.tasks i).pid = k.nextPid) : i = child := by
  by_contra hne
  have hi := h.others i hne
  have hlt := hp.lt i (hi.used.symm.trans hu)
  rw [← hi.pid] at hlt
  omega

theorem Fresh.reap (h : Fresh c child k k') : Fresh c child k (k'.reap child) := by
  refine ⟨h.ne, h.free, fun j hj ↦ ?_, .inl (reap_used k' child)⟩
  rw [reap_tasks k' hj]
  exact h.others j hj

theorem sysFork_kin (hp : k.Pids) (hu : (k.tasks k.currentTask).used = true)
    (hn : k.nextPid < 2 ^ 31) (f : SyscallFrame) : Kin k.currentTask d True k (k.sysFork f).1 := by
  have hclone := sysClone_fresh hu f (cloneVm ||| cloneFs ||| cloneSighand) 0 0 0 0 false
  have hspec := sysClone_spec hu f (cloneVm ||| cloneFs ||| cloneSighand) 0 0 0 0 false
  have hkin := sysClone_kin (d := d) hu f (cloneVm ||| cloneFs ||| cloneSighand) 0 0 0 0 false
  simp only [sysFork]
  generalize k.sysClone f (cloneVm ||| cloneFs ||| cloneSighand) 0 0 0 0 false =
    r at hclone hspec hkin ⊢
  split
  · exact hkin
  next hneg =>
  split
  · exact hkin
  next j hj =>
  -- the call has not failed, so the task with the new pid is the child that it has made
  have hr : r.2 = ofInt k.nextPid := by
    obtain ⟨v, rfl, hv⟩ | ⟨child, -, hv⟩ := hspec
    · exact absurd hv hneg
    · exact hv.resolve_left hneg
  obtain ⟨huj, hpid⟩ := findTask_spec hj
  have hpos : 0 ≤ k.nextPid := le_of_lt ((hp.pos _ hu).trans (hp.lt _ hu))
  have hpid : (r.1.tasks j).pid = k.nextPid := by
    rw [of_decide_eq_true hpid, hr, asInt_ofInt hpos hn]
  obtain ⟨child, hf⟩ : ∃ child, Fresh k.currentTask child k r.1 := by
    refine hclone.resolve_left fun h ↦ ?_
    rw [h] at huj hpid
    exact absurd hpid (ne_of_lt (hp.lt j huj))
  obtain rfl := hf.eq_child hp huj hpid
  have hb : Fresh k.currentTask j k (r.1.modifyTask j (fun t ↦ t.setState .blocked)) :=
    hf.modify _ fun t ↦ .inr ⟨rfl, rfl, fun _ hs ↦ by cases hs⟩
  have hvm : ∀ vm, Fresh k.currentTask j k
      ((r.1.modifyTask j (fun t ↦ t.setState .blocked)).setVm vm) :=
    fun vm ↦ hb.of_tasks rfl
  split
  · next vm e he => exact (hvm vm).reap.kin
  · next vm root he =>
    have hstart := (hvm vm).modify (fun t ↦
      { t with ctx := { t.ctx with cr3 := UInt64.ofNat (root * pageSize) }, state := .runnable })
      fun t ↦ .inr ⟨rfl, rfl, fun _ hs ↦ by cases hs⟩
    exact hstart.kin

def MakesTask (nr : UInt64) : Prop := nr.toNat = 56 ∨ nr.toNat = 57

def EndsTask (nr : UInt64) : Prop := nr.toNat = 60 ∨ nr.toNat = 231

variable {f : SyscallFrame} {a : Call} {r : Kernel × SyscallFrame × UInt64}

theorem syscallBody_kin (hp : k.Pids) (hu : (k.tasks k.currentTask).used = true)
    (hn : k.nextPid < 2 ^ 31) (h : k.syscallBody f a = some r) :
    Kin k.currentTask (fun i ↦ i = k.currentTask ∧ EndsTask f.rax) (MakesTask f.rax) k r.1 := by
  unfold syscallBody at h
  dsimp only at h
  split at h
  · obtain rfl := Option.some.inj h
    exact (sysRtSigreturn_remain k f).kin
  · obtain rfl := Option.some.inj h
    exact (sysSchedYield_remain k f a.effects).kin
  · next hnr =>
    obtain rfl := Option.some.inj h
    exact (sysClone_kin hu f _ _ _ _ _ _).mono (fun _ hi ↦ hi) fun _ ↦ .inl hnr
  · next hnr =>
    obtain rfl := Option.some.inj h
    have hkin : Kin k.currentTask (fun i ↦ i = k.currentTask ∧ EndsTask f.rax) (MakesTask f.rax) k
        (k.sysFork f).1 :=
      (sysFork_kin hp hu hn f).mono (fun _ hi ↦ hi) fun _ ↦ .inr hnr
    dsimp only
    exact hkin
  · obtain rfl := Option.some.inj h
    exact (sysExecve_remain k a).kin
  · next hnr =>
    obtain rfl := Option.some.inj h
    exact (sysExit_remain k _ ⟨rfl, .inl hnr⟩).kin
  · obtain rfl := Option.some.inj h
    exact sysWait4_kin hp f _ _ _
  · obtain rfl := Option.some.inj h
    exact (sysArchPrctl_remain k _ _).kin
  · obtain rfl := Option.some.inj h
    exact (sysFutex_remain k f _ _ _ _).kin
  · next hnr =>
    obtain rfl := Option.some.inj h
    exact (sysExitGroup_remain k _ ⟨rfl, .inr hnr⟩).kin
  · obtain ⟨r', hr', h⟩ := Option.bind_eq_some_iff.1 h
    obtain rfl := Option.some.inj h
    exact ((callSteps_remain k f a.steps).trans (finish_remain _ hr')).kin

theorem syscallBody_currentTask (hp : k.Pids) (hu : (k.tasks k.currentTask).used = true)
    (hn : k.nextPid < 2 ^ 31) (hm : MakesTask f.rax) (h : k.syscallBody f a = some r) :
    r.1.currentTask = k.currentTask := by
  unfold syscallBody at h
  rcases hm with hm | hm
  · simp only [hm] at h
    obtain rfl := Option.some.inj h
    exact (sysClone_stays hu f _ _ _ _ _ _).currentTask
  · simp only [hm] at h
    obtain rfl := Option.some.inj h
    have hs := sysFork_stays hp hu hn f
    dsimp only
    exact hs.currentTask

end Kernel

end YabroOS
