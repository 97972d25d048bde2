import YabroOS.Memory.Contents
import YabroOS.Memory.LazyRegions

namespace YabroOS.Memory

open Lib Function

namespace Vmm

variable {s s' : Vmm} {root va a prot : ℕ} {reserved : ℕ → Bool} {B : Set UInt8} {R R' : Prop}

theorem mapZero_eq_zero {flags : PteFlags} (hc : mapZero flags s va = (s', 0)) :
    s.mapFresh va (fun _ ↦ 0) flags = (s', 0) := by
  unfold mapZero at hc
  cases hf : s.mapFresh va (fun _ ↦ 0) flags with
  | mk s₁ rc =>
  rw [hf] at hc
  dsimp only at hc
  split at hc
  · cases hc
  · next hrc =>
    rw [not_not] at hrc
    cases hc
    rw [hrc]

theorem mprotectStep_spec (h : s.Framed) (hu : s.user = some root) (hal : va % pageSize = 0)
    (hc : mprotectStep prot reserved s va = (s', 0)) :
    Off root (· = Pmm.pageOf va) s s' ∧ s.Keeps s' ∧
      (s.vmmUserTranslateCr3 root va = none → reserved va = true ∧ (s' = s ∨
        ∀ a, Pmm.pageOf a = Pmm.pageOf va → s'.userByte root a = some 0)) ∧
      ((s.vmmUserTranslateCr3 root va).isSome = true →
        (prot = 0 ∧ s'.vmmUserTranslateCr3 root va = none) ∨
          ∀ a, s'.userByte root a = s.userByte root a) := by
  have hkeeps := Keeps.mprotectStep prot reserved s va
  rw [hc] at hkeeps
  simp only [mprotectStep, translate_eq_of_user hu] at hc
  split at hc
  · next hnone =>
    simp only [hnone, Option.isSome_none, Bool.false_eq_true, false_implies, and_true, true_implies]
    split at hc
    · cases hc
    next hres =>
    split at hc
    · cases hc
      exact ⟨.refl s, hkeeps, by simpa using hres, .inl rfl⟩
    · have hfresh := mapZero_eq_zero hc
      have hoff := off_mapFresh h hu va (fun _ ↦ 0) (protToPte prot)
      rw [hfresh] at hoff
      exact ⟨hoff, hkeeps, by simpa using hres, .inr fun a ha ↦ mapFresh_userByte hu hfresh ha⟩
  · next e he =>
    simp only [he, reduceCtorEq, false_implies, Option.isSome_some, true_implies, true_and]
    split at hc
    · next hprot =>
      cases hc
      exact ⟨off_unmapFree hu va, hkeeps, .inl ⟨hprot, unmapFree_translate hu hal⟩⟩
    · cases hp : s.vmmUserProtect va (protToPte prot) with
      | mk s₁ rc =>
      obtain ⟨hoff, hbyte⟩ := off_userProtect h hu hp
      rw [hp] at hc
      obtain rfl : s₁ = s' := congrArg Prod.fst hc
      exact ⟨hoff, hkeeps, .inr hbyte⟩

/-- What is to be read at an address is in `B`; `R` says that its page, should it be gone, can come
back. -/
def Reads (root a : ℕ) (B : Set UInt8) (R : Prop) (s : Vmm) : Prop :=
  (∃ b ∈ B, s.userByte root a = some b) ∨ s.vmmUserTranslateCr3 root a = none ∧ (R → 0 ∈ B)

theorem Reads.of_not (h : Reads root a B R s) (hR : R' → R) : Reads root a B R' s :=
  h.imp_right fun ⟨hnone, hzero⟩ ↦ ⟨hnone, fun hr ↦ hzero (hR hr)⟩

theorem mprotectStep_reads (h : s.Framed) (hu : s.user = some root) (hal : va % pageSize = 0)
    (hR : reserved (Pmm.pageOf a) = true → R) (hzero : prot = 0 → va = Pmm.pageOf a → R → 0 ∈ B)
    (hc : mprotectStep prot reserved s va = (s', 0)) (hs : Reads root a B R s) :
    Reads root a B R s' := by
  obtain ⟨hoff, -, hnone, hmapped⟩ := mprotectStep_spec h hu hal hc
  have hpage : Pmm.pageOf va = va := pageOf_of_dvd (Nat.dvd_of_mod_eq_zero hal)
  by_cases hva : Pmm.pageOf a = va
  swap
  · have hne : root = root → ¬ Pmm.pageOf a = Pmm.pageOf va := fun _ ↦ by rwa [hpage]
    unfold Reads
    rwa [hoff.userByte hne, hoff.translate root a hne]
  subst hva
  rw [translate_pageOf] at hnone hmapped
  obtain ⟨b, hb, hs⟩ | ⟨hgone, hfree⟩ := hs
  · have hsome : (s.vmmUserTranslateCr3 root a).isSome = true := by
      cases ht : s.vmmUserTranslateCr3 root a with
      | none => simp [userByte, ht] at hs
      | some e => rfl
    obtain ⟨hprot, hgone⟩ | hbyte := hmapped hsome
    · rw [translate_pageOf] at hgone
      exact .inr ⟨hgone, hzero hprot rfl⟩
    · exact .inl ⟨b, hb, (hbyte a).trans hs⟩
  · obtain ⟨hres, rfl | hfresh⟩ := hnone hgone
    · exact .inr ⟨hgone, hfree⟩
    · exact .inl ⟨0, hfree (hR hres), hfresh a (Pmm.pageOf_mul _).symm⟩

theorem mprotectLoop_spec {l : List ℕ} {n : ℕ} (h : s.Framed) (hu : s.user = some root)
    (hal : ∀ va ∈ l, va % pageSize = 0)
    (hc : eachPage (mprotectStep prot reserved) l s = (s', n, 0)) :
    Off root (· ∈ l) s s' ∧ s.Keeps s' ∧ ∀ a B R, (reserved (Pmm.pageOf a) = true → R) →
      (prot = 0 → Pmm.pageOf a ∈ l → R → 0 ∈ B) → Reads root a B R s → Reads root a B R s' := by
  induction l generalizing s n with
  | nil =>
    cases hc
    exact ⟨.refl _, .refl _, fun _ _ _ _ _ hs ↦ hs⟩
  | cons va l ih =>
    simp only [eachPage] at hc
    cases hp : mprotectStep prot reserved s va with
    | mk s₁ rc =>
    rw [hp] at hc
    dsimp only at hc
    by_cases hrc : rc = 0
    swap
    · rw [if_pos hrc] at hc
      cases hc
      exact absurd rfl hrc
    subst hrc
    rw [if_neg (by simp)] at hc
    cases he : eachPage (mprotectStep prot reserved) l s₁ with
    | mk s₂ q =>
    obtain ⟨k, rc⟩ := q
    rw [he] at hc
    cases hc
    have hva := hal va (.head _)
    have hpage : Pmm.pageOf va = va := pageOf_of_dvd (Nat.dvd_of_mod_eq_zero hva)
    obtain ⟨hoff, hkeeps, -⟩ := mprotectStep_spec h hu hva hp
    obtain ⟨hoff', hkeeps', hrest⟩ :=
      ih (hkeeps.framed h) (hkeeps.user.trans hu) (fun v hv ↦ hal v (.tail _ hv)) he
    refine ⟨(hoff.mono fun k hk ↦ ?_).trans (hoff'.mono fun k hk ↦ .tail _ hk),
      hkeeps.trans hkeeps', fun a B R hR hz hs ↦ ?_⟩
    · rw [hk, hpage]
      exact .head _
    · refine hrest a B R hR (fun hprot hmem ↦ hz hprot (.tail _ hmem)) ?_
      exact mprotectStep_reads h hu hva hR (fun hprot hv ↦ hz hprot (hv ▸ .head _)) hp hs

end Vmm

/-- The page of an address lies in a reservation. -/
def UserTask.Reserved (t : UserTask) (va : ℕ) : Prop :=
  ∃ r ∈ t.lazyMmaps, ∃ a, Pmm.pageOf a = Pmm.pageOf va ∧ r.Has a

/-- A call to `sys_mprotect` by a task. -/
structure ProtectCall where
  task : Slot
  addr : ℕ
  len : ℕ
  prot : ℕ

namespace ProtectCall

def size (c : ProtectCall) : ℕ := pageUp c.len

def Covers (c : ProtectCall) (va : ℕ) : Prop := c.addr ≤ va ∧ va < c.addr + c.size

end ProtectCall

namespace Mm

variable {heaps : Prop} {m m' m'' : Mm} {root : ℕ} {c : ProtectCall} {i : Slot}

/-- The task that calls runs in the address space, and the call succeeds. -/
def Protected (root : ℕ) (m : Mm) (c : ProtectCall) (m' : Mm) : Prop :=
  (m.tasks c.task).used = true ∧ (m.tasks c.task).cr3 = root ∧
    { m with current := c.task }.sysMprotect c.addr c.len c.prot = (m', 0)

/-- Successful calls to `sys_mprotect`, one after the other, each of which meets a condition in the
state that it finds. -/
inductive Protects (root : ℕ) (P : Mm → ProtectCall → Prop) : Mm → List ProtectCall → Mm → Prop
  | nil (m : Mm) : Protects root P m [] m
  | cons {m m' m'' : Mm} {c : ProtectCall} {l : List ProtectCall} (hc : Protected root m c m')
      (hp : P m c) (hl : Protects root P m' l m'') : Protects root P m (c :: l) m''

/-- What a task reads at an address: a page that is reserved and may be read comes with zeros. -/
def ReadsAs (m : Mm) (i : Slot) (va : ℕ) (b : UInt8) : Prop :=
  m.vmm.userByte (m.tasks i).cr3 va = some b ∨
    m.vmm.vmmUserTranslateCr3 (m.tasks i).cr3 va = none ∧ b = 0 ∧
      ∃ prot, taskLazyMmapProtection (m.tasks i) va = some prot ∧
        (prot.testBit 0 = true ∨ prot.testBit 1 = true)

/-- A call that succeeds changes the reservations of the tasks that share the address space, and
then goes through the pages. -/
theorem Running.sysMprotect_ok (h : m.Running heaps) {addr len prot : ℕ}
    (hc : m.sysMprotect addr len prot = (m', 0)) :
    ∃ out v n, addr % pageSize = 0 ∧ addr < addr + pageUp len ∧
      taskLazyMmapTransform m.task.lazyMmaps addr (addr + pageUp len) .setProt prot = .ok out ∧
      Vmm.eachPage (Vmm.mprotectStep prot (fun va ↦ (LazyMmap.protection out va).isSome))
        (pages addr (pageUp len)) { m.vmm with user := some m.task.cr3 } = (v, n, 0) ∧
      m' = { m.updateShared (fun t ↦ { t with lazyMmaps := out }) with vmm := v } := by
  unfold Mm.sysMprotect at hc
  split at hc
  · cases hc
  next m₁ ha =>
  have h₁ := h.activate ha
  have htask := activate_task ha
  have hm₁ := activate_some ha
  dsimp only at hc
  split at hc
  · cases hc
  next hal =>
  split at hc
  · cases hc
  split at hc
  · cases hc
  next hrange =>
  simp only [not_or, not_not, Bool.not_eq_false] at hal hrange
  rw [h₁.transform_eq, htask] at hc
  have hlt : addr < addr + pageUp len := by omega
  cases ht : taskLazyMmapTransform m.task.lazyMmaps addr (addr + pageUp len) .setProt prot with
  | error rc =>
    rw [ht, LazyMmap.transform_error hlt ht] at hc
    cases hc
  | ok out =>
    rw [ht] at hc
    dsimp only at hc
    rw [if_neg (by decide), updateShared_task h₁.shares_current] at hc
    subst hm₁
    have hc' : (fun q : Vmm × ℕ × ℤ ↦
        ({ m.updateShared (fun t ↦ { t with lazyMmaps := out }) with vmm := q.1 }, q.2.2))
        (Vmm.eachPage (Vmm.mprotectStep prot (fun va ↦ (LazyMmap.protection out va).isSome))
          (pages addr (pageUp len))
          { m.vmm with user := some m.task.cr3 }) = (m', 0) := hc
    generalize hq : Vmm.eachPage
      (Vmm.mprotectStep prot (fun va ↦ (LazyMmap.protection out va).isSome))
        (pages addr (pageUp len))
      { m.vmm with user := some m.task.cr3 } = q at hc'
    obtain ⟨v, n, rc⟩ := q
    cases hc'
    exact ⟨out, v, n, hal.1, hlt, rfl, hq, rfl⟩

/-- What successful calls that together cover `C` do to an address space. `hit va` says that one of
them gives up a page of a reservation. -/
structure Reprotects (root : ℕ) (C hit : ℕ → Prop) (m m' : Mm) : Prop where
  tasks : ∀ i, (m'.tasks i).used = (m.tasks i).used ∧ (m'.tasks i).cr3 = (m.tasks i).cr3
  reserved : ∀ i va, (m'.tasks i).Reserved va → (m.tasks i).Reserved va
  translate : ∀ va, ¬ C va → m'.vmm.vmmUserTranslateCr3 root va = m.vmm.vmmUserTranslateCr3 root va
  protection : ∀ i va, ¬ C va →
    taskLazyMmapProtection (m'.tasks i) va = taskLazyMmapProtection (m.tasks i) va
  reads : ∀ i a B, (m.tasks i).used = true → (m.tasks i).cr3 = root → (hit a → 0 ∈ B) →
    m.vmm.Reads root a B ((m.tasks i).Reserved a) → m'.vmm.Reads root a B ((m'.tasks i).Reserved a)

/-- The call gives up the page of an address, which lies in a reservation. -/
def Drops (m : Mm) (c : ProtectCall) (va : ℕ) : Prop :=
  c.prot = 0 ∧ c.Covers va ∧ (m.tasks c.task).Reserved va

theorem Orderly.reserved_iff (h : m.Orderly heaps) {j : Slot} (hi : (m.tasks i).used = true)
    (hj : (m.tasks j).used = true) (hij : (m.tasks i).cr3 = (m.tasks j).cr3) (va : ℕ) :
    (m.tasks i).Reserved va ↔ (m.tasks j).Reserved va := by
  unfold UserTask.Reserved
  rw [(h.same i j hi hj hij).lazyMmaps]

theorem Orderly.protected_spec (h : m.Orderly heaps) (hc : Protected root m c m') :
    m'.Orderly heaps ∧ Reprotects root c.Covers (m.Drops c) m m' := by
  obtain ⟨hused, rfl, hc⟩ := hc
  have hrun := h.turn hused
  have hafter := kept_running.sysMprotect hrun c.addr c.len c.prot
  rw [hc] at hafter
  obtain ⟨out, v, n, hal, hlt, ht, hloop, rfl⟩ := hrun.sysMprotect_ok hc
  have hdvd : pageSize ∣ c.addr := Nat.dvd_of_mod_eq_zero hal
  have hpages : ∀ va ∈ pages c.addr (pageUp c.len), va % pageSize = 0 := fun va hva ↦
    Nat.mod_eq_zero_of_dvd (pageSize_dvd_of_mem hdvd hva)
  have hmem : ∀ va, Pmm.pageOf va ∈ pages c.addr (pageUp c.len) → c.Covers va := by
    intro va hva
    obtain ⟨k, hk, hpage⟩ := Vmm.mem_pages.1 hva
    obtain ⟨a, ha⟩ := hdvd
    simp only [ProtectCall.Covers, ProtectCall.size, pageUp, Pmm.pageOf, pageSize] at *
    omega
  have hpieces := transform_out ht
  simp only [reduceCtorEq, if_false, List.append_nil] at hpieces
  have hout : ∀ r ∈ out, ∀ a, r.Has a → ∃ r' ∈ (m.tasks c.task).lazyMmaps, r'.Has a := by
    intro r hr a ha
    rw [hpieces] at hr
    obtain ⟨r', hr', hpiece⟩ := List.mem_flatMap.1 hr
    exact ⟨r', hr', LazyMmap.piece_spec hpiece ha⟩
  have hlazy : ∀ {i}, ({ m with current := c.task } : Mm).shares i = true →
      (m.tasks i).lazyMmaps = (m.tasks c.task).lazyMmaps := fun hi ↦ hrun.lazy_current hi
  have hframed : ({ m.vmm with user := some (m.tasks c.task).cr3 } : Vmm).Framed := h.framed
  obtain ⟨hoff, hkeeps, hreads⟩ := Vmm.mprotectLoop_spec hframed rfl hpages hloop
  have hreserved : ∀ i va, ((({ m with current := c.task } : Mm).updateShared
      (fun t ↦ { t with lazyMmaps := out })).tasks i).Reserved va → (m.tasks i).Reserved va := by
    intro i va
    simp only [Mm.updateShared]
    split_ifs with hi
    · rintro ⟨r, hr, a, hpage, ha⟩
      obtain ⟨r', hr', ha'⟩ := hout r hr a ha
      exact ⟨r', hlazy hi ▸ hr', a, hpage, ha'⟩
    · exact id
  refine ⟨hafter.toOrderly, fun i ↦ ?_, hreserved, fun va hva ↦ ?_, fun i va hva ↦ ?_,
    fun i a B hi hcr3 hzero hs ↦ ?_⟩
  · simp only [Mm.updateShared]
    split_ifs
    · exact ⟨rfl, rfl⟩
    · exact ⟨rfl, rfl⟩
  · exact hoff.translate _ va (fun _ hp ↦ hva (hmem va hp))
  · simp only [Mm.updateShared]
    split_ifs with hi
    · rw [taskLazyMmapProtection_eq, taskLazyMmapProtection_eq, hlazy hi, hpieces]
      exact LazyMmap.protection_flatMap_outside hlt hva
    · rfl
  · refine Vmm.Reads.of_not ?_ (hreserved i a)
    rw [h.reserved_iff hi hused hcr3] at hs ⊢
    refine hreads a B _ (fun hres ↦ ?_) (fun hprot hp hR ↦ hzero ⟨hprot, hmem a hp, hR⟩) hs
    obtain ⟨r, hr, ha⟩ := LazyMmap.isSome_protection.1 hres
    obtain ⟨r', hr', ha'⟩ := hout r hr _ ha
    exact ⟨r', hr', _, Pmm.pageOf_mul _, ha'⟩

theorem Reprotects.trans {C C' hit hit' : ℕ → Prop} (h : Reprotects root C hit m m')
    (h' : Reprotects root C' hit' m' m'') :
    Reprotects root (fun va ↦ C va ∨ C' va) (fun va ↦ hit va ∨ hit' va) m m'' where
  tasks i := ⟨(h'.tasks i).1.trans (h.tasks i).1, (h'.tasks i).2.trans (h.tasks i).2⟩
  reserved i va hr := h.reserved i va (h'.reserved i va hr)
  translate va hva := by
    rw [not_or] at hva
    exact (h'.translate va hva.2).trans (h.translate va hva.1)
  protection i va hva := by
    rw [not_or] at hva
    exact (h'.protection i va hva.2).trans (h.protection i va hva.1)
  reads i a B hi hcr3 hzero hs :=
    h'.reads i a B ((h.tasks i).1.trans hi) ((h.tasks i).2.trans hcr3) (fun hh ↦ hzero (.inr hh))
      (h.reads i a B hi hcr3 (fun hh ↦ hzero (.inl hh)) hs)

theorem Reprotects.mono {C C' hit hit' : ℕ → Prop} (h : Reprotects root C hit m m')
    (hC : ∀ va, C va → C' va) (hhit : ∀ va, hit va → hit' va) : Reprotects root C' hit' m m' where
  tasks := h.tasks
  reserved := h.reserved
  translate va hva := h.translate va (fun hc ↦ hva (hC va hc))
  protection i va hva := h.protection i va (fun hc ↦ hva (hC va hc))
  reads i a B hi hcr3 hzero := h.reads i a B hi hcr3 (fun hh ↦ hzero (hhit a hh))

theorem Orderly.protects_spec (h : m.Orderly heaps) {P : Mm → ProtectCall → Prop}
    {l : List ProtectCall} (hl : Protects root P m l m') :
    Reprotects root (fun va ↦ ∃ c ∈ l, c.Covers va) (fun va ↦ ∃ m c, P m c ∧ m.Drops c va) m m' := by
  induction hl with
  | nil m =>
    exact ⟨fun _ ↦ ⟨rfl, rfl⟩, fun _ _ ↦ id, fun _ _ ↦ rfl, fun _ _ _ ↦ rfl, fun _ _ _ _ _ _ ↦ id⟩
  | @cons m m' m'' c l hc hp hl ih =>
    obtain ⟨horderly, hone⟩ := h.protected_spec hc
    refine (hone.trans (ih horderly)).mono ?_ ?_
    · rintro va (hva | ⟨c', hc', hva⟩)
      · exact ⟨c, .head _, hva⟩
      · exact ⟨c', .tail _ hc', hva⟩
    · rintro va (hva | hva)
      · exact ⟨m, c, hp, hva⟩
      · exact hva

theorem ReadsAs.reads {va : ℕ} {b : UInt8} {B : Set UInt8} {R : Prop} (h : m.ReadsAs i va b)
    (hb : b ∈ B) : m.vmm.Reads (m.tasks i).cr3 va B R := by
  obtain h | ⟨hnone, rfl, -⟩ := h
  · exact .inl ⟨b, hb, h⟩
  · exact .inr ⟨hnone, fun _ ↦ hb⟩

theorem ReadsAs.mem {va : ℕ} {b : UInt8} {B : Set UInt8} (h : m.ReadsAs i va b)
    (hreads : m.vmm.Reads (m.tasks i).cr3 va B ((m.tasks i).Reserved va)) : b ∈ B := by
  obtain h | ⟨hnone, rfl, prot, hprot, -⟩ := h
  · obtain ⟨x, hx, hbyte⟩ | ⟨hnone, -⟩ := hreads
    · rw [h] at hbyte
      cases hbyte
      exact hx
    · rw [Vmm.userByte, hnone] at h
      cases h
  · obtain ⟨x, hx, hbyte⟩ | ⟨-, hzero⟩ := hreads
    · rw [Vmm.userByte, hnone] at hbyte
      cases hbyte
    · obtain ⟨r, hr, ha⟩ := LazyMmap.isSome_protection.1 (Option.isSome_of_eq_some hprot)
      exact hzero ⟨r, hr, va, rfl, ha⟩

/-- Calls to `sys_mprotect` keep what is read, unless one of them gives up a page of a reservation,
which comes back with zeros; outside their ranges nothing changes. -/
theorem mprotect_keeps (pmm : Pmm) (bytes : ℕ → ℕ → UInt8) (fbPhys fbSize : ℕ)
    (hfb : FbReserved pmm fbPhys fbSize) (l : List MmCall) (root : ℕ) (calls : List ProtectCall)
    (m' : Mm) : let m := (boot pmm bytes fbPhys fbSize).run l
    (∀ i va b b', (m.tasks i).used = true → (m.tasks i).cr3 = root → m.ReadsAs i va b →
      m'.ReadsAs i va b' → (Protects root (fun m c ↦ ¬ m.Drops c va) m calls m' → b' = b) ∧
        (Protects root (fun _ _ ↦ True) m calls m' → b' = b ∨ b' = 0)) ∧
      (Protects root (fun _ _ ↦ True) m calls m' → ∀ va, (∀ c ∈ calls, ¬ c.Covers va) →
        m'.vmm.vmmUserTranslateCr3 root va = m.vmm.vmmUserTranslateCr3 root va ∧
          ∀ i, taskLazyMmapProtection (m'.tasks i) va = taskLazyMmapProtection (m.tasks i) va) := by
  intro m
  have h : m.Orderly False := run_orderly hfb bytes (fun hh ↦ hh.elim)
  refine ⟨fun i va b b' hi hcr3 hb hb' ↦ ⟨fun hl ↦ ?_, fun hl ↦ ?_⟩, fun hl va hva ↦ ?_⟩
  · have hspec := h.protects_spec hl
    have hzero : (∃ (m : Mm) (c : ProtectCall), ¬ m.Drops c va ∧ m.Drops c va) →
        (0 : UInt8) ∈ ({b} : Set UInt8) :=
      fun ⟨_, _, hn, hd⟩ ↦ absurd hd hn
    subst hcr3
    have hread := hspec.reads i va {b} hi rfl hzero (hb.reads rfl)
    rw [← (hspec.tasks i).2] at hread
    exact hb'.mem hread
  · have hspec := h.protects_spec hl
    subst hcr3
    have hread := hspec.reads i va {b, 0} hi rfl (fun _ ↦ .inr rfl) (hb.reads (.inl rfl))
    rw [← (hspec.tasks i).2] at hread
    exact hb'.mem hread
  · have hspec := h.protects_spec hl
    have hout : ¬ ∃ c ∈ calls, c.Covers va := fun ⟨c, hc, hcov⟩ ↦ hva c hc hcov
    exact ⟨hspec.translate va hout, fun i ↦ hspec.protection i va hout⟩

def protect (m : Mm) (c : ProtectCall) : Mm × ℤ :=
  { m with current := c.task }.sysMprotect c.addr c.len c.prot

def protectOk (root : ℕ) (m : Mm) (c : ProtectCall) : Bool :=
  (m.tasks c.task).used && (m.tasks c.task).cr3 = root && (m.protect c).2 = 0

theorem Protected.of_ok (h : protectOk root m c = true) : Protected root m c (m.protect c).1 := by
  simp only [protectOk, Bool.and_eq_true, decide_eq_true_eq] at h
  obtain ⟨⟨hused, hcr3⟩, hrc⟩ := h
  exact ⟨hused, hcr3, Prod.ext rfl hrc⟩

theorem Protects.pair {P : Mm → ProtectCall → Prop} {c' : ProtectCall} (hP : ∀ m, P m c)
    (hP' : ∀ m, P m c') (h : protectOk root m c = true)
    (h' : protectOk root (m.protect c).1 c' = true) :
    Protects root P m [c, c'] ((m.protect c).1.protect c').1 :=
  .cons (.of_ok h) (hP m) (.cons (.of_ok h') (hP' _) (.nil _))

def storedCalls : List MmCall :=
  [.launch (some (onePage 5)) ⟨[47, 97], [], []⟩, .mmap 0 4096 0 0x22 .negative 0,
    .mprotect userMmapMin 4096 3,
    .store userMmapMin 7]

def storedPage : Mm := (boot freeMemory (fun _ _ ↦ 0) 0 0).run storedCalls

def protectPage (prot : ℕ) : ProtectCall := ⟨0, userMmapMin, 4096, prot⟩

theorem storedPage_reads : storedPage.ReadsAs 0 userMmapMin 7 := .inl (by decide +kernel)

/-- The program gives the page up and asks for it again. -/
theorem mprotect_none_clears :
    ∃ m', Protects 4096 (fun _ _ ↦ True) storedPage [protectPage 0, protectPage 1] m' ∧
      storedPage.ReadsAs 0 userMmapMin 7 ∧ m'.ReadsAs 0 userMmapMin 0 := by
  obtain ⟨hnone, hback, hread⟩ : protectOk 4096 storedPage (protectPage 0) = true ∧
      protectOk 4096 (storedPage.protect (protectPage 0)).1 (protectPage 1) = true ∧
      ((storedPage.protect (protectPage 0)).1.protect (protectPage 1)).1.vmm.userByte
        (((storedPage.protect (protectPage 0)).1.protect (protectPage 1)).1.tasks 0).cr3
          userMmapMin = some 0 := by decide +kernel
  exact ⟨_, .pair (fun _ ↦ trivial) (fun _ ↦ trivial) hnone hback, storedPage_reads, .inl hread⟩

theorem mprotect_keeps_stored :
    ∃ m', Protects 4096 (fun m c ↦ ¬ m.Drops c userMmapMin) storedPage
      [protectPage 1, protectPage 3] m' ∧
      m'.ReadsAs 0 userMmapMin 7 ∧ ∀ b, m'.ReadsAs 0 userMmapMin b → b = 7 := by
  have hdrops : ∀ {prot}, prot ≠ 0 → ∀ m : Mm, ¬ m.Drops (protectPage prot) userMmapMin :=
    fun hne _ hd ↦ hne hd.1
  obtain ⟨hused, hcr3, hfirst, hsecond, hbyte⟩ : (storedPage.tasks 0).used = true ∧
      (storedPage.tasks 0).cr3 = 4096 ∧ protectOk 4096 storedPage (protectPage 1) = true ∧
      protectOk 4096 (storedPage.protect (protectPage 1)).1 (protectPage 3) = true ∧
      ((storedPage.protect (protectPage 1)).1.protect (protectPage 3)).1.vmm.userByte
        (((storedPage.protect (protectPage 1)).1.protect (protectPage 3)).1.tasks 0).cr3
          userMmapMin = some 7 := by decide +kernel
  have hl : Protects 4096 (fun m c ↦ ¬ m.Drops c userMmapMin) storedPage
      [protectPage 1, protectPage 3]
      ((storedPage.protect (protectPage 1)).1.protect (protectPage 3)).1 :=
    .pair (hdrops (by decide)) (hdrops (by decide)) hfirst hsecond
  have hread := storedPage_reads
  have hafter : ((storedPage.protect (protectPage 1)).1.protect (protectPage 3)).1.ReadsAs 0
      userMmapMin 7 :=
    .inl hbyte
  generalize ((storedPage.protect (protectPage 1)).1.protect (protectPage 3)).1 = m' at hl hafter
  have hkeeps := (mprotect_keeps freeMemory (fun _ _ ↦ 0) 0 0 (fbReserved_none _) storedCalls 4096
    [protectPage 1, protectPage 3] m').1
  unfold storedPage at hl hread hused hcr3 ⊢
  exact ⟨m', hl, hafter, fun b hb ↦ (hkeeps 0 userMmapMin 7 b hused hcr3 hread hb).1 hl⟩

end Mm

end YabroOS.Memory
