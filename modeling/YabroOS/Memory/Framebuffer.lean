import YabroOS.Memory.MmapFails

namespace YabroOS.Memory

open Lib

namespace Vmm

variable {s s' : Vmm} {virt off len phys : ℕ} {rc : ℤ}

/-- The check of `sys_mmap` on the framebuffer's range; the sums wrap. -/
def sysMmapFbAccepts (fbPhys fbSize off len : ℕ) : Prop :=
  let remaining :=
    if off < fbSize then ((fbPhys % pageSize + fbSize) % 2 ^ 64 + (2 ^ 64 - off)) % 2 ^ 64 else 0
  off % pageSize = 0 ∧ fbSize ≠ 0 ∧ off < fbSize ∧ pageUp len ≠ 0 ∧ pageUp len ≤ pageUp remaining

/-- The check of `graphics_fb_map`; a sum that overflows is refused. -/
def graphicsFbAccepts (fbPhys fbSize off len : ℕ) : Prop :=
  let remaining := fbPhys % pageSize + (fbSize - off)
  fbSize ≠ 0 ∧ off % pageSize = 0 ∧ len ≠ 0 ∧ off < fbSize ∧ len + (pageSize - 1) < 2 ^ 64 ∧
    remaining < 2 ^ 64 ∧
    remaining + (pageSize - 1) < 2 ^ 64 ∧ pageUp len ≠ 0 ∧ pageUp len ≤ pageUp remaining

instance (fbPhys fbSize off len : ℕ) : Decidable (graphicsFbAccepts fbPhys fbSize off len) :=
  inferInstanceAs (Decidable (_ ∧ _))

def vmmUserMapPhys (s : Vmm) (virt phys : ℕ) (flags : PteFlags) : Vmm × ℤ :=
  if phys % pageSize ≠ 0 then (s, -1) else s.vmmUserMap virt (phys % 2 ^ 52 / pageSize) flags

def fbPagePhys (virt phys : ℕ) (s : Vmm) (va : ℕ) : Vmm × ℤ :=
  s.vmmUserMapPhys va ((phys + (va - virt)) % 2 ^ 64) fbFlags

def graphicsFbMapPhys (s : Vmm) (virt off len : ℕ) : Vmm × ℤ :=
  if virt = 0 ∨ virt % pageSize ≠ 0 ∨ ¬ graphicsFbAccepts s.fbPhys s.fbSize off len then (s, -22)
  else if userTop ≤ virt ∨ userTop - virt < pageUp len then (s, -22)
  else
    match eachPage (fbPagePhys virt (min (Pmm.pageOf s.fbPhys + off) (2 ^ 64 - 1)))
      (pages virt (pageUp len)) s with
    | (s, done, rc) =>
      if rc ≠ 0 then
        (((pages virt (pageUp len)).take done).foldl (fun s va ↦ (s.vmmUserUnmap va).1) s, -12)
      else (s, pageUp len)

theorem pageUp_bounds {x : ℕ} (h : x + (pageSize - 1) < 2 ^ 64) :
    x ≤ pageUp x ∧ pageUp x < x + pageSize ∧ pageSize ∣ pageUp x := by
  have hup : pageUp x = (x + (pageSize - 1)) / pageSize * pageSize := by
    rw [pageUp, Nat.mod_eq_of_lt h, Pmm.pageOf]
  refine ⟨?_, ?_, pageUp_dvd x⟩
  · simp only [pageSize] at *
    omega
  · simp only [pageSize] at *
    omega

theorem accepts_iff {fbPhys fbSize : ℕ} (hfb : fbPhys + fbSize ≤ 2 ^ 52) (hlen : len < 2 ^ 64) :
    sysMmapFbAccepts fbPhys fbSize off len ↔ graphicsFbAccepts fbPhys fbSize off len := by
  have hmod : fbPhys % pageSize < pageSize := Nat.mod_lt _ (by decide)
  have hle : fbPhys % pageSize ≤ fbPhys := Nat.mod_le _ _
  unfold sysMmapFbAccepts graphicsFbAccepts
  by_cases hoff : off < fbSize
  · have hremaining : ((fbPhys % pageSize + fbSize) % 2 ^ 64 + (2 ^ 64 - off)) % 2 ^ 64 = fbPhys %
        pageSize + (fbSize - off) := by
      omega
    simp only [if_pos hoff, hremaining]
    constructor
    · rintro ⟨hal, hsize, -, hpos, hfit⟩
      have hmax : pageUp (fbPhys % pageSize + (fbSize - off)) < fbPhys % pageSize + (fbSize - off) +
          pageSize :=
        (pageUp_bounds (by simp only [pageSize] at *; omega)).2.1
      have hpos' : len ≠ 0 := by
        rintro rfl
        exact hpos rfl
      have hnowrap : len + (pageSize - 1) < 2 ^ 64 := by
        by_contra hwrap
        have hzero : pageUp len = 0 := by
          rw [pageUp, Pmm.pageOf]
          simp only [pageSize] at *
          omega
        exact hpos hzero
      refine ⟨hsize, hal, hpos', hoff, hnowrap, ?_, ?_, hpos, hfit⟩
      · omega
      · simp only [pageSize] at *
        omega
    · rintro ⟨hsize, hal, -, -, -, -, -, hpos, hfit⟩
      exact ⟨hal, hsize, hoff, hpos, hfit⟩
  · simp [hoff]

theorem fbPage_ok {va : ℕ} (h : fbPagePhys virt phys s va = (s', 0)) :
    s'.vmmUserTranslate va =
      some (userPte ((phys + (va - virt)) % 2 ^ 64 % 2 ^ 52 / pageSize) fbFlags) ∧
      s'.user = s.user ∧
      ∀ r v, (s.user = some r → Pmm.pageOf v ≠ Pmm.pageOf va) →
        s'.vmmUserTranslateCr3 r v = s.vmmUserTranslateCr3 r v := by
  unfold fbPagePhys vmmUserMapPhys at h
  split_ifs at h with hal
  · cases h
  · have hkept := userMap_frame s va ((phys + (va - virt)) % 2 ^ 64 % 2 ^ 52 / pageSize) fbFlags
    have hother := fun r v ↦
      @translate_userMap_of_ne va v s ((phys + (va - virt)) % 2 ^ 64 % 2 ^ 52 / pageSize) fbFlags r
    rw [h] at hkept hother
    exact ⟨translate_userMap h, hkept.2.2.1, hother⟩

theorem fbLoop_ok {l : List ℕ} {n : ℕ} {root : ℕ} (hu : s.user = some root)
    (hal : ∀ va ∈ l, va % pageSize = 0) (hnodup : l.Nodup)
    (hc : eachPage (fbPagePhys virt phys) l s = (s', n, 0)) :
    (∀ va ∈ l, s'.vmmUserTranslateCr3 root va =
      some (userPte ((phys + (va - virt)) % 2 ^ 64 % 2 ^ 52 / pageSize) fbFlags)) ∧
      s'.user = some root ∧ ∀ r v, (r = root → Pmm.pageOf v ∉ l) →
        s'.vmmUserTranslateCr3 r v = s.vmmUserTranslateCr3 r v := by
  induction l generalizing s n with
  | nil =>
    cases hc
    exact ⟨fun va hva ↦ (List.not_mem_nil hva).elim, hu, fun _ _ _ ↦ rfl⟩
  | cons va l ih =>
    obtain ⟨hva, hnodup⟩ := List.nodup_cons.1 hnodup
    have hpage : Pmm.pageOf va = va := pageOf_aligned (hal va (.head _))
    simp only [eachPage] at hc
    cases hp : fbPagePhys virt phys s va with
    | mk s₁ rc₁ =>
    rw [hp] at hc
    dsimp only at hc
    split at hc
    · next hrc =>
      cases hc
      exact absurd rfl hrc
    next hrc =>
    rw [not_not] at hrc
    subst hrc
    cases he : eachPage (fbPagePhys virt phys) l s₁ with
    | mk s₂ q =>
    obtain ⟨k, rc₂⟩ := q
    rw [he] at hc
    cases hc
    obtain ⟨htrans, huser, hother⟩ := fbPage_ok hp
    obtain ⟨hpages, hu₂, hrest⟩ := ih (huser.trans hu) (fun v hv ↦ hal v (.tail _ hv)) hnodup he
    refine ⟨fun v hv ↦ ?_, hu₂, fun r v hv ↦ ?_⟩
    · rcases List.mem_cons.1 hv with rfl | hv
      · rw [hrest root v fun _ ↦ by rwa [hpage], ← translate_eq_of_user (huser.trans hu)]
        exact htrans
      · exact hpages v hv
    · rw [hrest r v fun hr hmem ↦ hv hr (.tail _ hmem)]
      refine hother r v fun hr heq ↦ ?_
      rw [hu] at hr
      rw [hpage] at heq
      exact hv (Option.some.inj hr).symm (heq ▸ .head _)

/-- Every framebuffer below the highest physical address: the two checks accept the same lengths,
and a mapping has the frames from its offset on, all of them with a byte of the framebuffer, and
changes no other page. -/
theorem graphicsFbMap_confined (s : Vmm) (hfb : s.fbPhys + s.fbSize ≤ 2 ^ 52) :
    (∀ off len, len < 2 ^ 64 →
      (sysMmapFbAccepts s.fbPhys s.fbSize off len ↔ graphicsFbAccepts s.fbPhys s.fbSize off len)) ∧
    ∀ virt off len s' rc root, s.user = some root → s.graphicsFbMapPhys virt off len = (s', rc) →
      0 ≤ rc →
      (∀ i < pageUp len / pageSize, ∃ e, s'.vmmUserTranslateCr3 root (virt + i * pageSize) = some e ∧
        e.frame * pageSize = Pmm.pageOf s.fbPhys + off + i * pageSize ∧
        e.frame * pageSize < s.fbPhys + s.fbSize ∧ s.fbPhys < e.frame * pageSize + pageSize) ∧
      ∀ r va, (r = root → Pmm.pageOf va ∉ pages virt (pageUp len)) →
        s'.vmmUserTranslateCr3 r va = s.vmmUserTranslateCr3 r va := by
  refine ⟨fun off len hlen ↦ accepts_iff hfb hlen, fun virt off len s' rc root hu h hrc ↦ ?_⟩
  unfold graphicsFbMapPhys at h
  split_ifs at h with hargs htop
  · obtain ⟨-, rfl⟩ := Prod.mk.inj h
    exact absurd hrc (by decide)
  · obtain ⟨-, rfl⟩ := Prod.mk.inj h
    exact absurd hrc (by decide)
  push Not at hargs
  obtain ⟨-, hal, -, hoffal, -, hoff, -, hsum, hwrap, -, hfit⟩ := hargs
  have hdvd : pageSize ∣ virt := Nat.dvd_of_mod_eq_zero hal
  cases he : eachPage (fbPagePhys virt (min (Pmm.pageOf s.fbPhys + off) (2 ^ 64 - 1)))
    (pages virt (pageUp len)) s with
  | mk s₁ q =>
  obtain ⟨n, rc₁⟩ := q
  rw [he] at h
  dsimp only at h
  split_ifs at h with hrc₁
  · obtain ⟨-, rfl⟩ := Prod.mk.inj h
    exact absurd hrc (by decide)
  rw [not_not] at hrc₁
  subst hrc₁
  obtain ⟨rfl, -⟩ := Prod.mk.inj h
  obtain ⟨hpages, -, hother⟩ := fbLoop_ok hu
    (fun va hva ↦ Nat.mod_eq_zero_of_dvd (pageSize_dvd_of_mem hdvd hva))
      (List.Nodup.of_map _ (pages_nodup hdvd _)) he
  refine ⟨fun i hi ↦ ⟨_, hpages _ (mem_pages.2 ⟨i, hi, rfl⟩), ?_⟩, hother⟩
  have hmax := (pageUp_bounds hwrap).2.1
  have hframe : i * pageSize + pageSize ≤ pageUp len := by
    have hmul : (i + 1) * pageSize ≤ pageUp len := (Nat.le_div_iff_mul_le (by decide)).1 hi
    rwa [Nat.succ_mul] at hmul
  have hdown : Pmm.pageOf s.fbPhys + s.fbPhys % pageSize = s.fbPhys := by
    rw [Pmm.pageOf, Nat.mul_comm]
    exact Nat.div_add_mod _ _
  have hdowndvd : pageSize ∣ Pmm.pageOf s.fbPhys := dvd_mul_left _ _
  have hphys : min (Pmm.pageOf s.fbPhys + off) (2 ^ 64 - 1) = Pmm.pageOf s.fbPhys + off := by omega
  have haddr : (Pmm.pageOf s.fbPhys + off + (virt + i * pageSize - virt)) % 2 ^ 64 % 2 ^ 52 =
      Pmm.pageOf s.fbPhys + off + i * pageSize := by
    rw [Nat.add_sub_cancel_left]
    omega
  have hmult : pageSize ∣ Pmm.pageOf s.fbPhys + off + i * pageSize :=
    Nat.dvd_add (Nat.dvd_add hdowndvd (Nat.dvd_of_mod_eq_zero hoffal)) (dvd_mul_left _ _)
  simp only [userPte, hphys, haddr, Nat.div_mul_cancel hmult, true_and]
  have hmod : s.fbPhys % pageSize < pageSize := Nat.mod_lt _ (by decide)
  omega

theorem fbPagePhys_eq {i : ℕ} (hoff : off % pageSize = 0)
    (hlt : Pmm.pageOf s.fbPhys + off + i * pageSize < 2 ^ 52) :
    fbPagePhys virt (Pmm.pageOf s.fbPhys + off) s (virt + i * pageSize) =
      fbPage virt off s (virt + i * pageSize) := by
  have hsum : Pmm.pageOf s.fbPhys + off + i * pageSize =
      (s.fbPhys / pageSize + off / pageSize + i) * pageSize := by
    rw [Nat.add_mul, Nat.add_mul, Nat.div_mul_cancel (Nat.dvd_of_mod_eq_zero hoff), Pmm.pageOf]
  have hmod : (Pmm.pageOf s.fbPhys + off + i * pageSize) % 2 ^ 64 = Pmm.pageOf s.fbPhys + off + i *
      pageSize :=
    Nat.mod_eq_of_lt (by omega)
  rw [fbPagePhys, vmmUserMapPhys, fbPage, Nat.add_sub_cancel_left, hmod, Nat.mod_eq_of_lt hlt, hsum,
    Nat.mul_mod_left,
    if_neg (not_not.2 rfl), Nat.mul_div_cancel _ (by decide), Nat.mul_div_cancel _ (by decide)]

theorem fbLoop_eq {base : ℕ} (hoff : off % pageSize = 0) {l : List ℕ}
    (hl : ∀ va ∈ l, ∃ i, va = virt + i * pageSize ∧ base + off + i * pageSize < 2 ^ 52)
    (hs : Pmm.pageOf s.fbPhys = base) :
    eachPage (fbPagePhys virt (base + off)) l s = eachPage (fbPage virt off) l s := by
  induction l generalizing s with
  | nil => rfl
  | cons va l ih =>
    obtain ⟨i, rfl, hlt⟩ := hl va (.head _)
    obtain rfl := hs
    have hkept : ((fbPage virt off s (virt + i * pageSize)).1).fbPhys = s.fbPhys :=
      (userMap_frame s _ _ _).1
    simp only [eachPage, fbPagePhys_eq hoff hlt]
    generalize fbPage virt off s (virt + i * pageSize) = r at hkept ⊢
    obtain ⟨s₁, rc⟩ := r
    dsimp only at hkept ⊢
    rw [ih (fun va hva ↦ hl va (.tail _ hva)) (congrArg Pmm.pageOf hkept)]

/-- Below the highest physical address the frames that `sys_mmap` gets are those of the physical
addresses. -/
theorem graphicsFbMap_eq (hfb : s.fbPhys + s.fbSize ≤ 2 ^ 52) (hlen : len < 2 ^ 64) :
    s.graphicsFbMap virt off len = s.graphicsFbMapPhys virt off len := by
  have hmod : s.fbPhys % pageSize < pageSize := Nat.mod_lt _ (by decide)
  have hdown : Pmm.pageOf s.fbPhys + s.fbPhys % pageSize = s.fbPhys := by
    rw [Pmm.pageOf, Nat.mul_comm]
    exact Nat.div_add_mod _ _
  unfold graphicsFbMap graphicsFbMapPhys
  dsimp only
  by_cases ha : virt = 0 ∨ virt % pageSize ≠ 0 ∨ ¬ graphicsFbAccepts s.fbPhys s.fbSize off len
  · rw [if_pos ha]
    split
    · rfl
    next h₁ =>
    split
    · rfl
    next h₂ =>
    -- What the first two checks let through is accepted.
    push Not at h₁ h₂
    obtain ⟨hsize, hvirt, hal, hoff, hlen0, hlt⟩ := h₁
    rw [← accepts_iff hfb hlen] at ha
    have hremaining : ((s.fbPhys % pageSize + s.fbSize) % 2 ^ 64 + (2 ^ 64 - off)) % 2 ^ 64 =
        s.fbPhys % pageSize + (s.fbSize - off) := by omega
    refine absurd ha
      (not_or.2 ⟨hvirt, not_or.2 ⟨not_not.2 hal, not_not.2 ⟨hoff, hsize, hlt, h₂.1, ?_⟩⟩⟩)
    rw [if_pos hlt, hremaining]
    exact h₂.2
  · rw [if_neg ha]
    push Not at ha
    obtain ⟨hvirt, hal, hsize, hoff, hlen0, hlt, -, hsum, hwrap, hpos, hfit⟩ := ha
    have hmax := (pageUp_bounds hwrap).2.1
    have hphys : min (Pmm.pageOf s.fbPhys + off) (2 ^ 64 - 1) = Pmm.pageOf s.fbPhys + off := by omega
    rw [if_neg (by omega), if_neg (by omega), hphys, fbLoop_eq hoff (fun va hva ↦ ?_) rfl]
    obtain ⟨i, hi, rfl⟩ := mem_pages.1 hva
    have hframe : i * pageSize + pageSize ≤ pageUp len := by
      have hmul : (i + 1) * pageSize ≤ pageUp len := (Nat.le_div_iff_mul_le (by decide)).1 hi
      rwa [Nat.succ_mul] at hmul
    exact ⟨i, rfl, by omega⟩

open Mm

def fbSpace (fbPhys : ℕ) : Vmm :=
  ((boot freeMemory (fun _ _ ↦ 0) fbPhys 4096).run (ownPage.take 1)).vmm

theorem graphicsFbMap_confined_page :
    ∃ e, ((fbSpace 0x100000010).graphicsFbMapPhys 0x50000000 0 8192).1.vmmUserTranslateCr3 4096
      (0x50000000 + 1 * pageSize) = some e ∧
      e.frame * pageSize = Pmm.pageOf (fbSpace 0x100000010).fbPhys + 0 + 1 * pageSize ∧
      e.frame * pageSize < (fbSpace 0x100000010).fbPhys + (fbSpace 0x100000010).fbSize ∧
      (fbSpace 0x100000010).fbPhys < e.frame * pageSize + pageSize := by
  obtain ⟨hfb, hu, hrc⟩ : (fbSpace 0x100000010).fbPhys + (fbSpace 0x100000010).fbSize ≤ 2 ^ 52 ∧
      (fbSpace 0x100000010).user = some 4096 ∧
        0 ≤ ((fbSpace 0x100000010).graphicsFbMapPhys 0x50000000 0 8192).2 := by
    decide +kernel
  exact ((graphicsFbMap_confined _ hfb).2 0x50000000 0 8192 _ _ 4096 hu Prod.mk.eta.symm hrc).1 1
    (by decide)

/-- The frame of a framebuffer above the highest physical address is cut to 52 bits. -/
theorem not_graphicsFbMap_confined : (fbSpace (2 ^ 52)).user = some 4096 ∧
    ((fbSpace (2 ^ 52)).graphicsFbMapPhys 0x50000000 0 4096).2 = 4096 ∧
    (((fbSpace (2 ^ 52)).graphicsFbMapPhys 0x50000000 0 4096).1.vmmUserTranslateCr3 4096
      0x50000000).map (fun e ↦ e.frame) = some 0 := by
  decide +kernel

end Vmm

end YabroOS.Memory
