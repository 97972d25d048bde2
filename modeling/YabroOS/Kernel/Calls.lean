import YabroOS.Kernel.Evolve

namespace YabroOS

open Memory Function Lib.Asm

namespace Kernel

variable {k k' : Kernel} {c i : Slot}

theorem findTask_spec {p : Task → Bool} (h : k.findTask p = some i) :
    (k.tasks i).used = true ∧ p (k.tasks i) = true := by
  have hi := List.find?_some h
  simpa using hi

@[simp] theorem userCopyTo_tasks (k : Kernel) (dst : UInt64) (data : List UInt8) :
    (k.userCopyTo dst data).1.tasks = k.tasks := rfl

theorem userCopyTo_stays (c : Slot) (k : Kernel) (dst : UInt64) (data : List UInt8) :
    Stays c k (k.userCopyTo dst data).1 :=
  .of_tasks c rfl rfl rfl

theorem stays_leave (hi : i ≠ c) (hp : (k.tasks i).ppid = (k.tasks c).pid)
    (hn : k'.nextPid = k.nextPid) (hctl : k'.ctl = k.ctl) (ho : ∀ j, j ≠ i → k'.tasks j = k.tasks j)
    (hu : (k'.tasks i).used = false) : Stays c k k' where
  nextPid := le_of_eq hn.symm
  used := by rw [ho c hi.symm]
  pid := by rw [ho c hi.symm]
  ppid := by rw [ho c hi.symm]
  others j hj _ := by
    by_cases hji : j = i
    · subst hji
      exact .inr ⟨hp, .inl hu⟩
    · rw [ho j hji]
      exact .inl (.refl j _)
  fresh j hj := by
    by_cases hji : j = i
    · subst hji
      exact .inl hu
    · rw [ho j hji]
      exact .inl hj
  pids h := by
    refine h.congr hn (fun j hj ↦ ?_)
    have hji : j ≠ i := by
      rintro rfl
      rw [hu] at hj
      cases hj
    rw [ho j hji] at hj ⊢
    exact ⟨hj, rfl, rfl⟩
  saved := by
    rw [ho c hi.symm]
    exact .refl _
  ctl := hctl
  waiting := by rw [ho c hi.symm]

theorem taskReapResources_tasks (k : Kernel) (i : Slot) {j : Slot} (hj : j ≠ i) :
    (k.taskReapResources i).tasks j = k.tasks j := by
  simp only [taskReapResources]
  split_ifs
  · rfl
  · exact modifyTask_of_ne _ _ _ _ hj
  · exact modifyTask_of_ne _ _ _ _ hj

theorem taskReapResources_ctl (k : Kernel) (i : Slot) :
    (k.taskReapResources i).ctl = k.ctl ∧ (k.taskReapResources i).nextPid = k.nextPid := by
  simp only [taskReapResources]
  split_ifs
  · exact ⟨rfl, rfl⟩
  · exact ⟨rfl, rfl⟩
  · exact ⟨rfl, rfl⟩

theorem reap_stays (hi : i ≠ c) (hp : (k.tasks i).ppid = (k.tasks c).pid) :
    Stays c k (k.reap i) := by
  obtain ⟨hctl, hn⟩ := taskReapResources_ctl k i
  refine stays_leave hi hp hn hctl (fun j hj ↦ ?_) ?_
  · rw [reap, modifyTask_of_ne _ _ _ _ hj, taskReapResources_tasks k i hj]
  · rw [reap, modifyTask_self]

theorem Pids.child_ne (h : k.Pids) (hu : (k.tasks i).used = true)
    (hp : (k.tasks i).ppid = (k.tasks c).pid) : i ≠ c := by
  rintro rfl
  have hlt := h.ppid i hu
  omega

theorem adoptCr3_stays (k : Kernel) (f : SyscallFrame) : Stays k.currentTask k (k.adoptCr3 f) := by
  simp only [adoptCr3]
  split_ifs
  · exact .refl _ k
  · have hvm : Stays k.currentTask k (k.vmmUserActivate f.userCr3).1 := .of_tasks _ rfl rfl rfl
    refine hvm.trans (stays_modifyTask ?_ ?_)
    · split_ifs
      · exact .of_eq rfl rfl rfl rfl rfl rfl
      · exact .refl _
    · split_ifs <;> rfl

theorem reapChild_stays (h : k.Pids) : Stays k.currentTask k k.reapChild := by
  simp only [reapChild]
  split_ifs
  · split
    · next i hi =>
      obtain ⟨hu, hp⟩ := findTask_spec hi
      have hp := of_decide_eq_true hp
      have hr := reap_stays (h.child_ne hu hp.2.1) hp.2.1
      refine hr.trans ?_
      rw [← hr.currentTask]
      exact stays_modifyTask (.of_eq rfl rfl rfl rfl rfl rfl) rfl
    · exact stays_modifyTask (.of_eq rfl rfl rfl rfl rfl rfl) rfl
  · exact .refl _ k

theorem prologue_stays (h : k.Pids) (f : SyscallFrame) : Stays k.currentTask k (k.prologue f) := by
  have h₁ := adoptCr3_stays k f
  have h₂ := reapChild_stays (h₁.pids h)
  rw [h₁.currentTask] at h₂
  have h₃ := h₁.trans h₂
  simp only [prologue]
  split_ifs
  · have hs := taskSave_stays (k.adoptCr3 f).reapChild f
    rw [h₃.currentTask] at hs
    exact h₃.trans hs
  · exact h₃

theorem prologue_nextPid (k : Kernel) (f : SyscallFrame) : (k.prologue f).nextPid = k.nextPid := by
  have hadopt : (k.adoptCr3 f).nextPid = k.nextPid := by
    unfold adoptCr3
    split_ifs <;> rfl
  have hreap : (k.adoptCr3 f).reapChild.nextPid = (k.adoptCr3 f).nextPid := by
    unfold reapChild
    dsimp only
    split_ifs
    · split
      · exact (taskReapResources_ctl _ _).2
      · rfl
    · rfl
  unfold prologue
  dsimp only
  split_ifs
  · exact hreap.trans hadopt
  · exact hreap.trans hadopt

/-- The task in slot `c` has made a child, which may be taken back already. -/
structure Spawned (c child : Slot) (k k' : Kernel) : Prop where
  ne : child ≠ c
  free : (k.tasks child).used = false
  nextPid : k'.nextPid = k.nextPid + 1
  ctl : k'.ctl = k.ctl
  self : Task.Same (k.tasks c) (k'.tasks c)
  waiting : (k'.tasks c).waiting = (k.tasks c).waiting
  others : ∀ j, j ≠ child → j ≠ c → k'.tasks j = k.tasks j
  pid : (k'.tasks child).pid = k.nextPid
  ppid : (k'.tasks child).ppid = (k.tasks c).pid
  idle : (k'.tasks child).Idle

theorem Spawned.pids {child : Slot} (h : Spawned c child k k') (hp : k.Pids)
    (hu : (k.tasks c).used = true) : k'.Pids := by
  have hold : ∀ j, j ≠ child → (k'.tasks j).used = (k.tasks j).used ∧
      (k'.tasks j).pid = (k.tasks j).pid ∧ (k'.tasks j).ppid = (k.tasks j).ppid := by
    intro j hj
    by_cases hjc : j = c
    · subst hjc
      exact ⟨h.self.used, h.self.pid, h.self.ppid⟩
    · rw [h.others j hj hjc]
      exact ⟨rfl, rfl, rfl⟩
  have hn := h.nextPid
  have hpid := h.pid
  have hppid := h.ppid
  have hc := hp.pos c hu
  have hcl := hp.lt c hu
  refine ⟨fun i hi ↦ ?_, fun i hi ↦ ?_, fun i hi ↦ ?_, fun i j hi hj hij ↦ ?_⟩
  · by_cases hic : i = child
    · rw [hic]
      omega
    · rw [(hold i hic).2.1]
      exact hp.pos i ((hold i hic).1 ▸ hi)
  · by_cases hic : i = child
    · rw [hic]
      omega
    · rw [(hold i hic).2.1]
      have := hp.lt i ((hold i hic).1 ▸ hi)
      omega
  · by_cases hic : i = child
    · rw [hic]
      omega
    · rw [(hold i hic).2.1, (hold i hic).2.2]
      exact hp.ppid i ((hold i hic).1 ▸ hi)
  · have hlt : ∀ j, j ≠ child → (k'.tasks j).used = true → (k'.tasks j).pid < k.nextPid := by
      intro j hj hu'
      rw [(hold j hj).2.1]
      exact hp.lt j ((hold j hj).1 ▸ hu')
    by_cases hic : i = child
    · by_cases hjc : j = child
      · rw [hic, hjc]
      · have := hlt j hjc hj
        rw [hic] at hij
        omega
    · by_cases hjc : j = child
      · have := hlt i hic hi
        rw [hjc] at hij
        omega
      · rw [(hold i hic).2.1, (hold j hjc).2.1] at hij
        exact hp.inj i j ((hold i hic).1 ▸ hi) ((hold j hjc).1 ▸ hj) hij

theorem Spawned.stays {child : Slot} (h : Spawned c child k k') (hu : (k.tasks c).used = true) :
    Stays c k k' where
  nextPid := by
    rw [h.nextPid]
    omega
  used := h.self.used
  pid := h.self.pid
  ppid := h.self.ppid
  others j hj hu := by
    have hjc : j ≠ child := by
      rintro rfl
      rw [h.free] at hu
      cases hu
    rw [h.others j hjc hj]
    exact .inl (.refl j _)
  fresh j hj := by
    by_cases hjc : j = child
    · subst hjc
      exact .inr ⟨le_of_eq h.pid.symm, h.ppid, fun _ ↦ h.idle.oneWait⟩
    · have hne : j ≠ c := by
        rintro rfl
        rw [hu] at hj
        cases hj
      rw [h.others j hjc hne]
      exact .inl hj
  pids hp := h.pids hp hu
  saved := h.self
  ctl := h.ctl
  waiting := h.waiting

theorem Spawned.child {child : Slot} (h : Spawned c child k k') {g : Task → Task}
    (hp : (g (k'.tasks child)).pid = (k'.tasks child).pid)
    (hpp : (g (k'.tasks child)).ppid = (k'.tasks child).ppid)
    (hi : (k'.tasks child).Idle → (g (k'.tasks child)).Idle) :
    Spawned c child k (k'.modifyTask child g) where
  ne := h.ne
  free := h.free
  nextPid := h.nextPid
  ctl := h.ctl
  self := by
    rw [modifyTask_of_ne _ _ _ _ h.ne.symm]
    exact h.self
  waiting := by rw [modifyTask_of_ne _ _ _ _ h.ne.symm, h.waiting]
  others j hj hjc := by rw [modifyTask_of_ne _ _ _ _ hj, h.others j hj hjc]
  pid := by rw [modifyTask_self, hp, h.pid]
  ppid := by rw [modifyTask_self, hpp, h.ppid]
  idle := by
    rw [modifyTask_self]
    exact hi h.idle

theorem Spawned.of_tasks {child : Slot} {k'' : Kernel} (h : Spawned c child k k')
    (hn : k''.nextPid = k'.nextPid) (ht : k''.tasks = k'.tasks) (hc : k''.ctl = k'.ctl) :
    Spawned c child k k'' where
  ne := h.ne
  free := h.free
  nextPid := hn.trans h.nextPid
  ctl := hc.trans h.ctl
  self := by rw [ht]; exact h.self
  waiting := by rw [ht, h.waiting]
  others j hj hjc := by rw [ht, h.others j hj hjc]
  pid := by rw [ht, h.pid]
  ppid := by rw [ht, h.ppid]
  idle := by rw [ht]; exact h.idle

theorem Spawned.parent {child : Slot} (h : Spawned c child k k') {g : Task → Task}
    (hs : Task.Same (k'.tasks c) (g (k'.tasks c)))
    (hw : (g (k'.tasks c)).waiting = (k'.tasks c).waiting) :
    Spawned c child k (k'.modifyTask c g) where
  ne := h.ne
  free := h.free
  nextPid := h.nextPid
  ctl := h.ctl
  self := by
    rw [modifyTask_self]
    exact h.self.trans hs
  waiting := by rw [modifyTask_self, hw, h.waiting]
  others j hj hjc := by rw [modifyTask_of_ne _ _ _ _ hjc, h.others j hj hjc]
  pid := by rw [modifyTask_of_ne _ _ _ _ h.ne, h.pid]
  ppid := by rw [modifyTask_of_ne _ _ _ _ h.ne, h.ppid]
  idle := by
    rw [modifyTask_of_ne _ _ _ _ h.ne]
    exact h.idle

theorem Spawned.release {child : Slot} (h : Spawned c child k k') :
    Spawned c child k (k'.modifyTask child (fun t ↦ { t with used := false })) :=
  h.child rfl rfl (fun hi ↦ hi.congr rfl rfl rfl rfl)

theorem storePid_spawned {child : Slot} (h : Spawned c child k k') (b : Bool) (addr : UInt64) :
    Spawned c child k (k'.storePid child b addr).1 := by
  simp only [storePid]
  split_ifs
  · refine Spawned.release ?_
    exact h.of_tasks rfl rfl rfl
  · exact h.of_tasks rfl rfl rfl
  · exact h

theorem childStart_idle (flags stack tls : UInt64) (t : Task) :
    (childStart flags stack tls t).pid = t.pid ∧ (childStart flags stack tls t).ppid = t.ppid ∧
      (t.Idle → (childStart flags stack tls t).Idle) := by
  simp only [childStart]
  split_ifs
  · exact ⟨rfl, rfl, fun h ↦ h.congr rfl rfl rfl rfl⟩
  · exact ⟨rfl, rfl, fun h ↦ h.congr rfl rfl rfl rfl⟩
  · exact ⟨rfl, rfl, fun h ↦ h.congr rfl rfl rfl rfl⟩
  · exact ⟨rfl, rfl, id⟩

theorem spawned_of_update {child : Slot} {t : Task} (f : SyscallFrame) (hne : child ≠ k.currentTask)
    (hfree : (k.tasks child).used = false) (hn : k'.nextPid = k.nextPid + 1) (hctl : k'.ctl = k.ctl)
    (ht : k'.tasks = update (k.taskSave f).tasks child t) (hp : t.pid = k.nextPid)
    (hpp : t.ppid = (k.tasks k.currentTask).pid) (hi : t.Idle) :
    Spawned k.currentTask child k k' := by
  have hs := taskSave_stays k f
  have hpar : k'.tasks k.currentTask = (k.taskSave f).tasks k.currentTask := by
    rw [ht, update_of_ne hne.symm]
  have hchild : k'.tasks child = t := by rw [ht, update_self]
  exact
    { ne := hne
      free := hfree
      nextPid := hn
      ctl := hctl
      self := hpar ▸ hs.saved
      waiting := by rw [hpar, hs.waiting]
      others := fun j hj hjc ↦ by rw [ht, update_of_ne hj, taskSave, modifyTask_of_ne _ _ _ _ hjc]
      pid := hchild ▸ hp
      ppid := hchild ▸ hpp
      idle := hchild ▸ hi }

theorem cloned_idle (child parent : Task) (pid : ℤ) (flags ctid : UInt64) :
    (child.cloned parent pid flags ctid).Idle :=
  ⟨rfl, rfl, show (-1 : ℤ) < 0 by decide, rfl⟩

theorem spawn_spawned {child : Slot} (f : SyscallFrame) (flags ctid : UInt64)
    (hne : child ≠ k.currentTask) (hfree : (k.tasks child).used = false) :
    Spawned k.currentTask child k (k.spawn child f flags ctid) :=
  spawned_of_update f hne hfree rfl rfl rfl rfl (taskSave_stays k f).pid (cloned_idle _ _ _ _ _)

theorem storePids_spawned {child : Slot} (h : Spawned c child k k') (flags ptid ctid : UInt64)
    (pid : ℤ) :
    Spawned c child k (k'.storePids c child flags ptid ctid pid).1 ∧
      (2 ^ 63 ≤ (k'.storePids c child flags ptid ctid pid).2 ∨
        (k'.storePids c child flags ptid ctid pid).2 = ofInt pid) := by
  have hfault : (2 ^ 63 : UInt64) ≤ errno efault := by decide +kernel
  have h₁ := storePid_spawned h (decide (flags &&& cloneParentSettid ≠ 0)) ptid
  simp only [storePids]
  split
  · next k₁ he =>
    rw [he] at h₁
    exact ⟨h₁, .inl hfault⟩
  · next k₁ he =>
    rw [he] at h₁
    have h₂ := storePid_spawned h₁ (decide (flags &&& cloneChildCleartid ≠ 0)) ctid
    split
    · next k₂ he' =>
      rw [he'] at h₂
      exact ⟨h₂, .inl hfault⟩
    · next k₂ he' =>
      rw [he'] at h₂
      refine ⟨Spawned.parent (g := fun t ↦ t.setRax (ofInt pid)) h₂ ?_ rfl, .inr rfl⟩
      exact .of_eq rfl rfl rfl rfl rfl rfl

theorem cloneCheck_negative {flags stack ptid ctid tls : UInt64} {b : Bool} {e : ℕ}
    (h : k.cloneCheck flags stack ptid ctid tls b = some e) : (2 ^ 63 : UInt64) ≤ errno e := by
  have he : e ∈ [efault, einval, enosys] := by
    simp only [cloneCheck] at h
    split_ifs at h <;> cases h <;> simp
  have hall : ∀ e ∈ [efault, einval, enosys], (2 ^ 63 : UInt64) ≤ errno e := by decide +kernel
  exact hall e he

theorem sysClone_spec (hu : (k.tasks k.currentTask).used = true) (f : SyscallFrame)
    (flags stack ptid ctid tls : UInt64) (b : Bool) :
    (∃ v, k.sysClone f flags stack ptid ctid tls b = (k, v) ∧ 2 ^ 63 ≤ v) ∨
      ∃ child, Spawned k.currentTask child k (k.sysClone f flags stack ptid ctid tls b).1 ∧
        (2 ^ 63 ≤ (k.sysClone f flags stack ptid ctid tls b).2 ∨
          (k.sysClone f flags stack ptid ctid tls b).2 = ofInt k.nextPid) := by
  simp only [sysClone]
  split
  · next e he => exact .inl ⟨_, rfl, cloneCheck_negative he⟩
  · split
    · exact .inl ⟨_, rfl, by decide +kernel⟩
    · next child hchild =>
      have hfree : (k.tasks child).used = false := by simpa using List.find?_some hchild
      have hne : child ≠ k.currentTask := by
        rintro rfl
        rw [hu] at hfree
        cases hfree
      have h₁ := spawn_spawned f flags ctid hne hfree
      have hstart := childStart_idle flags stack tls
      refine .inr ⟨child, ?_⟩
      split
      · exact ⟨h₁.release, .inl (show (2 ^ 63 : UInt64) ≤ errno emfile by decide +kernel)⟩
      · next io hio =>
        have h₂ : Spawned k.currentTask child k ((k.spawn child f flags ctid).setIo io) :=
          h₁.of_tasks rfl rfl rfl
        refine storePids_spawned (h₂.child ?_ ?_ ?_) flags ptid ctid k.nextPid
        · exact (hstart _).1
        · exact (hstart _).2.1
        · exact (hstart _).2.2

theorem sysClone_stays (hu : (k.tasks k.currentTask).used = true) (f : SyscallFrame)
    (flags stack ptid ctid tls : UInt64) (b : Bool) :
    Stays k.currentTask k (k.sysClone f flags stack ptid ctid tls b).1 := by
  rcases sysClone_spec hu f flags stack ptid ctid tls b with ⟨v, hv, -⟩ | ⟨child, hs, -⟩
  · rw [hv]
    exact .refl _ k
  · exact hs.stays hu

theorem asInt_ofInt {n : ℤ} (h : 0 ≤ n) (h' : n < 2 ^ 31) : asInt (ofInt n) = n := by
  have hmod : n % 2 ^ 64 = n := Int.emod_eq_of_lt h (by omega)
  have hnat : (ofInt n).toNat = n.toNat := by
    rw [ofInt, hmod, UInt64.toNat_ofNat']
    exact Nat.mod_eq_of_lt (by omega)
  have hlt : n.toNat % 2 ^ 32 = n.toNat := Nat.mod_eq_of_lt (by omega)
  simp only [asInt, hnat, hlt]
  rw [if_pos (by omega)]
  omega

theorem Spawned.eq_child {child : Slot} (h : Spawned c child k k') (hp : k.Pids)
    (hu : (k.tasks c).used = true) (hi : (k'.tasks i).used = true)
    (hpid : (k'.tasks i).pid = k.nextPid) : i = child := by
  by_contra hne
  by_cases hic : i = c
  · subst hic
    rw [h.self.pid] at hpid
    have := hp.lt i hu
    omega
  · rw [h.others i hne hic] at hi hpid
    have := hp.lt i hi
    omega

theorem sysFork_stays (hp : k.Pids) (hu : (k.tasks k.currentTask).used = true)
    (hn : k.nextPid < 2 ^ 31) (f : SyscallFrame) : Stays k.currentTask k (k.sysFork f).1 := by
  have hclone := sysClone_stays hu f (cloneVm ||| cloneFs ||| cloneSighand) 0 0 0 0 false
  have hspec := sysClone_spec hu f (cloneVm ||| cloneFs ||| cloneSighand) 0 0 0 0 false
  simp only [sysFork]
  generalize k.sysClone f (cloneVm ||| cloneFs ||| cloneSighand) 0 0 0 0 false = r at hclone hspec ⊢
  split_ifs with hneg
  · exact hclone
  · split
    · exact hclone
    · next child' hchild =>
      obtain ⟨v, rfl, hv⟩ | ⟨child, hs, hv⟩ := hspec
      · exact absurd hv hneg
      · have hpos : 0 ≤ k.nextPid := le_of_lt ((hp.pos _ hu).trans (hp.lt _ hu))
        have hr : r.2 = ofInt k.nextPid := hv.resolve_left hneg
        obtain ⟨hu', hpid⟩ := findTask_spec hchild
        have hpid := of_decide_eq_true hpid
        rw [hr, asInt_ofInt hpos hn] at hpid
        obtain rfl := hs.eq_child hp hu hu' hpid
        have hb : Spawned k.currentTask child' k
            (r.1.modifyTask child' (fun t ↦ t.setState .blocked)) :=
          hs.child rfl rfl (fun hi ↦ hi.congr rfl rfl rfl rfl)
        have hvm : ∀ vm, Spawned k.currentTask child' k
            ((r.1.modifyTask child' (fun t ↦ t.setState .blocked)).setVm vm) :=
          fun vm ↦ hb.of_tasks rfl rfl rfl
        split
        · next vm e he =>
          have hvm := hvm vm
          refine (hvm.stays hu).trans (reap_stays hvm.ne ?_)
          rw [hvm.ppid, (hvm.stays hu).pid]
        · next vm root he =>
          refine Spawned.stays (Spawned.child (g := fun t ↦
            { t with ctx := { t.ctx with
              cr3 := UInt64.ofNat (root * pageSize) }, state := .runnable })
            (hvm vm) rfl rfl ?_) hu
          exact fun hi ↦ hi.congr rfl rfl rfl rfl

end Kernel

end YabroOS
