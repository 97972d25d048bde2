import YabroOS.Memory.WriteXorCalls

namespace YabroOS.Memory

open Lib Function

abbrev Segment := ℕ × Phdr

namespace Segment

variable (g : Segment)

def start : ℕ := (g.2.vaddr + g.1) % 2 ^ 64
def stop : ℕ := (g.start + g.2.memsz) % 2 ^ 64

def Covers (k : ℕ) : Prop := g.start / pageSize ≤ k ∧ k < pageUp g.stop / pageSize

instance (k : ℕ) : Decidable (g.Covers k) := inferInstanceAs (Decidable (_ ∧ _))

def Refused (img : ElfImage) : Prop :=
  g.2.memsz < g.2.filesz ∨ img.size < g.2.offset ∨ img.size - g.2.offset < g.2.filesz ∨
    2 ^ 64 - 1 - g.2.memsz < g.2.vaddr ∨
    g.start < g.2.vaddr ∨ userTop ≤ g.start ∨ userTop < g.stop ∨ g.stop < g.start ∨
      pageUp g.stop ≤ Pmm.pageOf g.start

instance (img : ElfImage) : Decidable (g.Refused img) := by
  unfold Refused
  infer_instance

end Segment

namespace ElfImage

variable (img : ElfImage) (bias : ℕ) (interp : Bool)

def segments : List Phdr → List Segment
  | [] => []
  | ph :: phs =>
    if ph.type ≠ 1 then segments phs
    else if ph.memsz = 0 then if interp then [] else segments phs
    else if Segment.Refused (bias, ph) img then []
    else (bias, ph) :: segments phs

def scan (entry : ℕ) : List Phdr → Vmm.Loaded → Option Vmm.Loaded
  | [], l => some l
  | ph :: phs, l =>
    if ph.type ≠ 1 then scan entry phs l
    else if ph.memsz = 0 then if interp then none else scan entry phs { l with count := l.count + 1 }
    else if Segment.Refused (bias, ph) img then none
    else scan entry phs (l.add bias entry ph)

def Fit : Prop :=
  ∃ l, img.scan bias interp ((img.entry + bias) % 2 ^ 64) img.phdrs ⟨0, false, 0⟩ = some l ∧
    l.count ≠ 0 ∧ l.entryExec = true ∧ (img.entry + bias) % 2 ^ 64 < userTop

end ElfImage

def ExecFile.interpImage (f : ExecFile) : Option ElfImage :=
  match f.image.interpPath with
  | .error _ => none
  | .ok path => if path = [] then none else (f.bootfs path).filter (fun j ↦ j.valid)

def ExecFile.Maps (f : ExecFile) (g : Segment) : Prop :=
  f.image.size ≠ 0 ∧ f.image.size ≤ 2 ^ 27 ∧ f.image.valid = true ∧
    f.image.entry ≤ (f.image.entry + f.image.bias) % 2 ^ 64 ∧
    (g ∈ f.image.segments f.image.bias false f.image.phdrs ∨
      f.image.Fit f.image.bias false ∧ ∃ j, f.interpImage = some j ∧
        g ∈ j.segments interpBase true j.phdrs)

/-- No page belongs to a writable segment and to an executable one. -/
def ExecFile.Apart (f : ExecFile) : Prop :=
  ∀ a b k, f.Maps a → f.Maps b → Vmm.segWrite a.2.flags = true → Vmm.segExec b.2.flags = true →
    a.Covers k → ¬ b.Covers k

/-- An executable file keeps its writable and its executable pages apart. -/
def Mm.Admits (_ : Mm) : MmCall → Prop
  | .execve (some f) _ => f.Apart
  | .launch (some f) _ => f.Apart
  | _ => True

namespace Vmm

variable {s : Vmm} {S : Segment → Prop} {root bias va : ℕ} {img : ElfImage} {g : Segment}
  {interp : Bool}

def Partial (S : Segment → Prop) (k : ℕ) (e : Pte) : Prop :=
  e.cow = false ∧ (e.w = true → ∃ a, S a ∧ segWrite a.2.flags = true ∧ a.Covers k) ∧
    (e.nx = false → ∃ b, S b ∧ segExec b.2.flags = true ∧ b.Covers k)

def loadingRule (S : Segment → Prop) (root r k : ℕ) (e : Pte) : Prop :=
  if r = root then Partial S k e else WriteXorExec k e

/-- The image at `root` is being loaded, and the other address spaces are complete. -/
structure Loading (S : Segment → Prop) (root : ℕ) (s : Vmm) : Prop where
  pages : Pages (loadingRule S root) s
  user : s.user = some root

theorem loading_promotable : Promotable (loadingRule S root) := by
  intro r k e f high h hcow
  unfold loadingRule at h ⊢
  split_ifs at h ⊢
  · exact absurd h.1 (by simp [hcow])
  · exact wx_promotable r k e f high h hcow

theorem Loading.wx (h : Loading S root s)
    (hapart : ∀ a b k, S a → S b → segWrite a.2.flags = true → segExec b.2.flags = true →
      a.Covers k → ¬ b.Covers k) :
    s.Wx := by
  intro r t ht
  refine (h.pages r t ht).imp (fun k e he ↦ ?_)
  unfold loadingRule at he
  split_ifs at he
  · intro hw
    rw [he.1, Bool.or_false] at hw
    obtain ⟨a, ha, haw, hak⟩ := he.2.1 hw
    by_contra hnx
    obtain ⟨b, hb, hbx, hbk⟩ := he.2.2 (by simpa using hnx)
    exact hapart a b k ha hb haw hbx hak hbk
  · exact he

theorem user_userMap (s : Vmm) (virt frame : ℕ) (flags : PteFlags) :
    (s.vmmUserMap virt frame flags).1.user = s.user := by
  simp only [vmmUserMap]
  split
  · rfl
  split
  · rfl
  split
  · rfl
  · rfl

theorem user_cowFault (s : Vmm) (root addr : ℕ) :
    (s.vmmUserCowFault root addr).1.user = s.user := by
  simp only [vmmUserCowFault]
  split
  · rfl
  · split_ifs
    · rfl
    · rfl
    · split
      · rfl
      · split_ifs
        · rfl
        · rfl

theorem user_userProtect (s : Vmm) (virt : ℕ) (flags : PteFlags) :
    (s.vmmUserProtect virt flags).1.user = s.user := by
  simp only [vmmUserProtect]
  cases hu : s.user with
  | none => exact hu
  | some root =>
  simp only
  split
  · exact hu
  split
  · exact hu
  split
  · have hcow := (user_cowFault s root virt).trans hu
    split
    · exact hcow
    · split
      · exact hcow
      · exact hcow
  · exact hu

theorem Loading.congr {s' : Vmm} (h : Loading S root s) (hs : s'.spaces = s.spaces)
    (hu : s'.user = s.user) : Loading S root s' := ⟨h.pages.congr hs, hu.trans h.user⟩

theorem Loading.mapUserPage (h : Loading S root s) (hg : S g) (hva : g.Covers (va / pageSize)) :
    Loading S root (mapUserPage g.2.flags s va).1 := by
  simp only [Vmm.mapUserPage]
  split
  · next e he =>
    refine ⟨Pages.userProtect loading_promotable h.pages (fun r e' hr he' f ↦ ?_),
      (user_userProtect ..).trans h.user⟩
    obtain rfl : r = root := Option.some.inj (hr.symm.trans h.user)
    obtain rfl : e = e' := Option.some.inj (he.symm.trans he')
    have hp : Partial S (va / pageSize) e := by
      simp only [vmmUserTranslate, h.user] at he
      have hp := h.pages.translate he
      rwa [loadingRule, if_pos rfl] at hp
    rw [loadingRule, if_pos rfl]
    refine ⟨rfl, fun hw ↦ ?_, fun hx ↦ ?_⟩
    · simp only [userPte, mergedFlags, Bool.or_eq_true] at hw
      rcases hw with hw | hw
      · exact hp.2.1 hw
      · exact ⟨g, hg, hw, hva⟩
    · simp only [userPte, mergedFlags, Bool.and_eq_false_iff, Bool.not_eq_false'] at hx
      rcases hx with hx | hx
      · exact hp.2.2 hx
      · exact ⟨g, hg, hx, hva⟩
  · split
    · exact h.congr rfl rfl
    · next pmm frame ha =>
      have hm : Loading S root
          (vmmUserMap { s with pmm := pmm } va frame (segmentFlags g.2.flags)).1 := by
        have hs : Loading S root { s with pmm := pmm } := h.congr rfl rfl
        refine ⟨hs.pages.userMap va frame _ (fun r hr ↦ ?_), (user_userMap ..).trans hs.user⟩
        obtain rfl : r = root := Option.some.inj (hr.symm.trans h.user)
        rw [loadingRule, if_pos rfl]
        refine ⟨rfl, fun hw ↦ ⟨g, hg, hw, hva⟩, fun hx ↦ ⟨g, hg, ?_, hva⟩⟩
        simpa [userPte, segmentFlags] using hx
      generalize vmmUserMap { s with pmm := pmm } va frame (segmentFlags g.2.flags) = r at hm ⊢
      split_ifs
      · exact hm
      · exact hm.congr rfl rfl
      · exact hm

theorem covers_of_mem (hg : ¬ g.Refused img)
    (hva : va ∈ pages (Pmm.pageOf (Pmm.pageOf g.start))
      (pageUp (pageUp g.stop) - Pmm.pageOf (Pmm.pageOf g.start))) :
    g.Covers (va / pageSize) := by
  obtain ⟨k, hk, rfl⟩ := exists_of_mem_pages hva
  simp only [Segment.Refused, not_or, not_lt, not_le] at hg
  obtain ⟨-, -, -, -, -, -, hstop, -, hlt⟩ := hg
  have hup := pageUp_eq hstop
  have hup' : pageUp (pageUp g.stop) = pageUp g.stop := by
    rw [pageUp_eq (x := pageUp g.stop)]
    · rw [hup]
      simp only [pageSize] at *
      omega
    · rw [hup]
      simp only [userTop, pageSize] at *
      omega
  rw [hup'] at hk
  unfold Segment.Covers
  generalize g.start = a at *
  generalize pageUp g.stop = b at *
  simp only [Pmm.pageOf, pageSize] at *
  omega

theorem Loading.mapUserRange (h : Loading S root s) (hg : S g) (hok : ¬ g.Refused img) :
    Loading S root (s.mapUserRange (Pmm.pageOf g.start) (pageUp g.stop) g.2.flags).1 := by
  unfold Vmm.mapUserRange
  split_ifs
  · exact h
  · exact eachPage_invariant (fun s va hmem hs ↦ hs.mapUserPage hg (covers_of_mem hok hmem)) h

theorem storeLoop_frame (ok : Pte → Bool) (fuel : ℕ) (s : Vmm) (dst : ℕ) (data : List UInt8) :
    (storeLoop ok fuel s dst data).1.spaces = s.spaces ∧
      (storeLoop ok fuel s dst data).1.user = s.user := by
  induction fuel generalizing s dst data with
  | zero => exact ⟨rfl, rfl⟩
  | succ fuel ih =>
    simp only [storeLoop]
    split
    · exact ⟨rfl, rfl⟩
    split
    · exact ⟨rfl, rfl⟩
    split
    · exact ih _ _ _
    · exact ⟨rfl, rfl⟩

theorem copySegment_frame (img : ElfImage) (ph : Phdr) (va : ℕ) (l : List ℕ) (s : Vmm) :
    (copySegment img ph va l s).1.spaces = s.spaces ∧
      (copySegment img ph va l s).1.user = s.user := by
  induction l generalizing s with
  | nil => exact ⟨rfl, rfl⟩
  | cons k l ih =>
    simp only [copySegment]
    split
    · exact ⟨rfl, rfl⟩
    · next data hd =>
      have hc : (s.copyToUserLoader (va + k * pageSize) data).1.spaces = s.spaces ∧
          (s.copyToUserLoader (va + k * pageSize) data).1.user = s.user := storeLoop_frame ..
      split
      · exact hc
      · obtain ⟨h₁, h₂⟩ := ih (s.copyToUserLoader (va + k * pageSize) data).1
        exact ⟨h₁.trans hc.1, h₂.trans hc.2⟩

theorem loadSegment_eq (s : Vmm) (img : ElfImage) (bias : ℕ) (ph : Phdr) :
    s.loadSegment img bias ph =
      if Segment.Refused (bias, ph) img then (s, -1)
      else
        match s.mapUserRange (Pmm.pageOf (Segment.start (bias, ph)))
    (pageUp (Segment.stop (bias, ph))) ph.flags with
        | (s, rc) =>
          if rc ≠ 0 then (s, -1)
          else
            match copySegment img ph (Segment.start (bias, ph))
                (List.range ((ph.filesz + (pageSize - 1)) / pageSize)) s with
            | (s, rc) =>
              if rc ≠ 0 then (s, -1)
              else s.copyToUserLoader (Segment.start (bias, ph) + ph.filesz)
                (List.replicate (ph.memsz - ph.filesz) 0) := rfl

theorem Loading.loadSegment (h : Loading S root s) {ph : Phdr}
    (hg : ¬ Segment.Refused (bias, ph) img → S (bias, ph)) :
    Loading S root (s.loadSegment img bias ph).1 := by
  rw [loadSegment_eq]
  split
  · exact h
  next hok =>
  have hm := h.mapUserRange (hg hok) hok
  dsimp only at hm
  generalize s.mapUserRange _ _ ph.flags = r at hm ⊢
  obtain ⟨s₁, rc⟩ := r
  dsimp only at hm ⊢
  split
  · exact hm
  obtain ⟨hsp, hu⟩ := copySegment_frame img ph (Segment.start (bias, ph))
    (List.range ((ph.filesz + (pageSize - 1)) / pageSize)) s₁
  have hc := hm.congr hsp hu
  generalize copySegment img ph _ _ s₁ = q at hc ⊢
  obtain ⟨s₂, rc₂⟩ := q
  dsimp only at hc ⊢
  split
  · exact hc
  · obtain ⟨hsp', hu'⟩ :=
      storeLoop_frame (fun e ↦ e.u) (List.replicate (ph.memsz - ph.filesz) (0 : UInt8)).length s₂
      (Segment.start (bias, ph) + ph.filesz) (List.replicate (ph.memsz - ph.filesz) 0)
    exact hc.congr hsp' hu'

theorem not_refused {ph : Phdr} (h : ¬ (s.loadSegment img bias ph).2 ≠ 0) :
    ¬ Segment.Refused (bias, ph) img := by
  intro hr
  rw [loadSegment_eq, if_pos hr] at h
  exact h (show (-1 : ℤ) ≠ 0 by decide)

theorem Loading.loadSegments (entry : ℕ) {phs : List Phdr} (l : Loaded) (h : Loading S root s)
    (hS : ∀ g ∈ img.segments bias interp phs, S g) :
    Loading S root (loadSegments img bias entry interp phs s l).1 := by
  induction phs generalizing s l with
  | nil => exact h
  | cons ph phs ih =>
    simp only [Vmm.loadSegments]
    simp only [ElfImage.segments] at hS
    split
    · next htype =>
      rw [if_pos htype] at hS
      exact ih l h hS
    next htype =>
    rw [if_neg htype] at hS
    split
    · next hz =>
      rw [if_pos hz] at hS
      split
      · exact h
      · next hi =>
        rw [if_neg hi] at hS
        exact ih _ h hS
    next hz =>
    rw [if_neg hz] at hS
    have hseg : Loading S root (s.loadSegment img bias ph).1 := by
      refine h.loadSegment (fun hok ↦ ?_)
      rw [if_neg hok] at hS
      exact hS _ (.head _)
    split
    · exact hseg
    · next hrc =>
      rw [if_neg (not_refused hrc)] at hS
      exact ih _ hseg (fun g hg ↦ hS g (.tail _ hg))

theorem loadSegments_scan {entry : ℕ} {phs : List Phdr} {l l' : Loaded}
    (h : (loadSegments img bias entry interp phs s l).2 = some l') :
    img.scan bias interp entry phs l = some l' := by
  induction phs generalizing s l with
  | nil => exact h
  | cons ph phs ih =>
    simp only [Vmm.loadSegments] at h
    simp only [ElfImage.scan]
    split at h
    · next htype =>
      rw [if_pos htype]
      exact ih h
    next htype =>
    rw [if_neg htype]
    split at h
    · next hz =>
      rw [if_pos hz]
      split at h
      · cases h
      · next hi =>
        rw [if_neg hi]
        exact ih h
    next hz =>
    rw [if_neg hz]
    split at h
    · cases h
    · next hrc =>
      rw [if_neg (not_refused hrc)]
      exact ih h

theorem Loading.loadImage (h : Loading S root s) (img : ElfImage) (bias : ℕ) (interp : Bool)
    (hS : ∀ g ∈ img.segments bias interp img.phdrs, S g) :
    Loading S root (s.loadImage img bias interp).1 := by
  have hl := h.loadSegments ((img.entry + bias) % 2 ^ 64) ⟨0, false, 0⟩ hS
  simp only [Vmm.loadImage]
  split
  · next s₁ he =>
    rw [he] at hl
    exact hl
  · next s₁ l he =>
    rw [he] at hl
    exact hl

theorem loadImage_fit {l : Loaded} (h : (s.loadImage img bias interp).2 = some l) :
    img.Fit bias interp := by
  simp only [Vmm.loadImage] at h
  split at h
  · cases h
  · next s₁ l₁ he =>
    dsimp only at h
    split_ifs at h with hbad
    simp only [not_or, not_le] at hbad
    refine ⟨l₁, loadSegments_scan (by rw [he]), hbad.1, ?_, hbad.2.2⟩
    simpa using hbad.2.1

theorem Wx.stackPage (h : Wx s) : Wx (stackPage s va).1 := by
  simp only [Vmm.stackPage]
  split
  · exact Pages.congr h rfl
  next pmm frame ha =>
  have hs : Wx { s with pmm := pmm } := Pages.congr h rfl
  have hm := Pages.userMap hs va frame heapFlags (fun _ _ ↦ wx_heapFlags _ frame)
  generalize vmmUserMap _ va frame heapFlags = r at hm ⊢
  split_ifs
  · exact hm
  · exact Pages.congr hm rfl
  · exact hm

theorem Wx.mapUserStack (h : Wx s) : Wx s.mapUserStack.1 := by
  simp only [Vmm.mapUserStack]
  exact eachPage_invariant (fun _ _ _ hs ↦ Wx.stackPage hs) h

theorem copyAll_spaces (l : List (ℕ × List UInt8)) (s : Vmm) :
    (copyAll l s).1.spaces = s.spaces := by
  induction l generalizing s with
  | nil => rfl
  | cons p l ih =>
    have hc : (s.copyToUser p.1 p.2).1.spaces = s.spaces := (storeLoop_frame ..).1
    simp only [copyAll]
    split
    · exact hc
    · exact (ih _).trans hc

theorem initUserStack_spaces (s : Vmm) (img : ElfImage) (bias entry interp : ℕ) (a : ExecArgs) :
    (s.initUserStack img bias entry interp a).1.spaces = s.spaces := by
  simp only [initUserStack]
  generalize (if a.argv = [] then [a.execfn] else a.argv) = argv
  split
  · rfl
  have h₁ := copyAll_spaces [(execfnVa, a.execfn ++ [0]), (randomVa, randomBytes)] s
  generalize copyAll [(execfnVa, a.execfn ++ [0]), (randomVa, randomBytes)] s = r at h₁ ⊢
  split
  · exact h₁
  generalize placeStrings (argv ++ a.envp) randomVa = q
  have h₂ := (copyAll_spaces q.1 r.1).trans h₁
  generalize copyAll q.1 r.1 = r₂ at h₂ ⊢
  split
  · exact h₂
  split
  · exact h₂
  split
  · exact (storeLoop_frame ..).1.trans h₂
  · exact (storeLoop_frame ..).1.trans h₂

theorem create_loading (S : Segment → Prop) (h : Wx s) (hc : s.vmmUserSpaceCreate.2 = 0) :
    ∃ root, Loading S root s.vmmUserSpaceCreate.1 := by
  unfold vmmUserSpaceCreate at hc ⊢
  split at hc
  · cases hc
  · next pmm root ha =>
    refine ⟨root, fun r t ht ↦ ?_, rfl⟩
    by_cases hr : r = root
    · subst hr
      obtain rfl : Tab.empty 3 = t := Option.some.inj ((Slots.get?_set_self _ _ _).symm.trans ht)
      exact Tab.leaves_empty 3 0
    · refine (h r t ((Slots.get?_set_of_ne _ hr _).symm.trans ht)).imp (fun k e he ↦ ?_)
      rwa [loadingRule, if_neg hr]

end Vmm

namespace Mm

theorem startImage_spec {s : Vmm} {f : ExecFile} (h : s.Wx) (hapart : f.Apart)
    (hsize : f.image.size ≠ 0 ∧ f.image.size ≤ 2 ^ 27) :
    (startImage s f.image).1.Wx ∧ ∀ imageEnd, (startImage s f.image).2 = some imageEnd →
      (∃ root, Vmm.Loading f.Maps root (startImage s f.image).1) ∧
        ∀ j, f.interpImage = some j → ∀ g ∈ j.segments interpBase true j.phdrs, f.Maps g := by
  unfold startImage
  split
  · exact ⟨h, fun _ he ↦ by cases he⟩
  next hvalid =>
  have hvalid : f.image.valid = true := by simpa using hvalid
  have hcreate := Vmm.create_loading f.Maps h
  have hwx : s.vmmUserSpaceCreate.1.Wx := Vmm.Pages.create h
  generalize s.vmmUserSpaceCreate = r at hcreate hwx ⊢
  obtain ⟨s₁, rc⟩ := r
  dsimp only at hcreate hwx ⊢
  split
  · exact ⟨hwx, fun _ he ↦ by cases he⟩
  next hrc =>
  obtain ⟨hrc, hentry⟩ := not_or.1 hrc
  obtain ⟨root, hload⟩ := hcreate (not_not.1 hrc)
  have hentry := not_lt.1 hentry
  have himage := hload.loadImage f.image f.image.bias false
    (fun g hg ↦ ⟨hsize.1, hsize.2, hvalid, hentry, .inl hg⟩)
  have hfit : ∀ l, (s₁.loadImage f.image f.image.bias false).2 = some l →
      f.image.Fit f.image.bias false :=
    fun l hl ↦ Vmm.loadImage_fit hl
  generalize s₁.loadImage f.image f.image.bias false = q at himage hfit ⊢
  obtain ⟨s₂, o⟩ := q
  dsimp only at himage hfit ⊢
  cases o with
  | none => exact ⟨himage.wx hapart, fun _ he ↦ by cases he⟩
  | some l =>
    refine ⟨himage.wx hapart, fun _ _ ↦ ⟨⟨root, himage⟩, fun j hj g hg ↦ ?_⟩⟩
    exact ⟨hsize.1, hsize.2, hvalid, hentry, .inr ⟨hfit l rfl, j, hj, hg⟩⟩

theorem finishImage_wx {s : Vmm} {f : ExecFile} {root : ℕ} (h : Vmm.Loading f.Maps root s)
    (hapart : f.Apart)
    (hmaps : ∀ j, f.interpImage = some j → ∀ g ∈ j.segments interpBase true j.phdrs, f.Maps g)
    (a : Vmm.ExecArgs) : (finishImage s f a).1.Wx := by
  simp only [finishImage]
  cases hpath : f.image.interpPath with
  | error rc => exact h.wx hapart
  | ok path =>
  dsimp only
  have hinterp : (if path = [] then (s, some 0)
      else s.loadBootfsElfImage (f.bootfs path) interpBase).1.Wx := by
    split
    · exact h.wx hapart
    next hne =>
    unfold Vmm.loadBootfsElfImage
    split
    · exact h.wx hapart
    next j hj =>
    split
    · exact h.wx hapart
    next hvalid =>
    have hj : f.interpImage = some j := by
      simp only [ExecFile.interpImage, hpath]
      rw [if_neg hne, hj, Option.filter_some, if_pos (by simpa using hvalid)]
    have hl := h.loadImage j interpBase true (hmaps j hj)
    split
    · next s₁ he =>
      rw [he] at hl
      exact hl.wx hapart
    · next s₁ l he =>
      rw [he] at hl
      exact hl.wx hapart
  generalize (if path = [] then (s, some 0) else s.loadBootfsElfImage (f.bootfs path) interpBase) =
    r at hinterp ⊢
  obtain ⟨s₁, o⟩ := r
  cases o with
  | none => exact hinterp
  | some interpEntry =>
  have hstack := hinterp.mapUserStack
  dsimp only at hstack ⊢
  generalize s₁.mapUserStack = q at hstack ⊢
  split
  · exact hstack
  have hinit := Vmm.initUserStack_spaces q.1 f.image f.image.bias (f.image.entry + f.image.bias)
    (if path = [] then 0 else interpBase) a
  split
  · next s₂ he =>
    rw [he] at hinit
    exact Vmm.Pages.congr hstack hinit
  · next s₂ sp he =>
    rw [he] at hinit
    exact Vmm.Pages.congr hstack hinit

theorem Exclusive.setTask {m : Mm} (h : m.Exclusive) (i : Slot) {t : UserTask}
    (ht : LazyWx t.lazyMmaps) : (m.setTask i t).Exclusive := by
  refine ⟨h.vmm, fun j ↦ ?_⟩
  by_cases hji : j = i
  · subst hji
    simp only [Mm.setTask, update_self]
    exact ht
  · simp only [Mm.setTask, update_of_ne hji]
    exact h.lazyMmaps j

theorem lazyWx_nil : LazyWx [] := fun _ hr ↦ by cases hr

variable {m : Mm} {file : Option ExecFile}

theorem Exclusive.userHeapResetForImage (h : m.Exclusive) (imageEnd : ℕ) :
    (m.userHeapResetForImage imageEnd).Exclusive := by
  unfold Mm.userHeapResetForImage
  split_ifs
  · exact h.setTask _ (h.lazyMmaps m.current)
  · exact h

theorem Exclusive.loadElf (h : m.Exclusive) {f : ExecFile} (hapart : f.Apart)
    (hsize : f.image.size ≠ 0 ∧ f.image.size ≤ 2 ^ 27) (a : Vmm.ExecArgs) :
    (m.loadElfWithArgsReader f a).1.Exclusive := by
  obtain ⟨hstart, hload⟩ := startImage_spec h.vmm hapart hsize
  simp only [loadElfWithArgsReader]
  split
  · next s₁ he =>
    rw [he] at hstart
    exact h.setVmm hstart
  · next s₁ imageEnd he =>
    rw [he] at hload
    obtain ⟨⟨root, hroot⟩, hmaps⟩ := hload imageEnd rfl
    exact (h.setVmm (finishImage_wx hroot hapart hmaps a)).userHeapResetForImage imageEnd

theorem Exclusive.kernelExecveFileArgs (h : m.Exclusive) (hapart : ∀ f, file = some f → f.Apart)
    (a : Vmm.ExecArgs) : (m.kernelExecveFileArgs file a).1.Exclusive := by
  unfold Mm.kernelExecveFileArgs
  split
  · exact h
  next f =>
  split
  · exact h
  next hsize =>
  obtain ⟨hz, hle⟩ := not_or.1 hsize
  have hl := h.loadElf (hapart f rfl) ⟨hz, not_lt.1 hle⟩ a
  split
  · next m₁ he =>
    rw [he] at hl
    exact hl
  · next m₁ entry stack he =>
    rw [he] at hl
    exact hl

theorem Exclusive.replaceImage (h : m.Exclusive) (newCr3 : ℕ) :
    (m.replaceImage newCr3).Exclusive := by
  simp only [Mm.replaceImage]
  refine Exclusive.setTask (h.setVmm ?_) _ lazyWx_nil
  split_ifs
  · exact Vmm.Pages.destroy h.vmm _
  · exact h.vmm

theorem Exclusive.sysExecve (h : m.Exclusive) (hapart : ∀ f, file = some f → f.Apart)
    (a : Vmm.ExecArgs) : (m.sysExecve file a).1.Exclusive := by
  unfold Mm.sysExecve
  split
  · exact h
  next m₁ ha =>
  have hk := (h.activate ha).kernelExecveFileArgs hapart a
  generalize m₁.kernelExecveFileArgs file a = r at hk ⊢
  split
  · exact hk
  · split
    · exact hk
    · split
      · exact Exclusive.replaceImage hk _
      · exact hk

theorem Exclusive.launch (h : m.Exclusive) (hapart : ∀ f, file = some f → f.Apart)
    (a : Vmm.ExecArgs) : (m.launch file a).Exclusive := by
  unfold Mm.launch
  split
  · exact h
  have hk := h.kernelExecveFileArgs hapart a
  generalize m.kernelExecveFileArgs file a = r at hk ⊢
  split
  · exact hk
  · split
    · exact hk
    · refine Exclusive.setTask hk _ ?_
      split_ifs
      · exact hk.lazyMmaps _
      · exact lazyWx_nil

theorem copyIds_wx (root : ℕ) (l : List (ℕ × List UInt8)) {s : Vmm} (h : s.Wx) :
    (copyIds root l s).1.Wx := by
  induction l generalizing s with
  | nil => exact h
  | cons p l ih =>
    have hc : (s.userCopyToCr3 root p.1 p.2).1.Wx :=
      Vmm.Pages.userCopyToCr3 Vmm.wx_promotable h _ _ _
    simp only [copyIds]
    split
    · exact hc
    · exact ih hc

theorem Exclusive.sysClone (h : m.Exclusive) (ok fds : Bool) (ids : List (ℕ × List UInt8)) :
    (m.sysClone ok fds ids).1.Exclusive := by
  simp only [Mm.sysClone]
  split
  · exact h
  split
  · exact h
  next i hi =>
  have hset : (m.setTask i { m.task with used := fds, zombie := false }).Exclusive :=
    h.setTask i (h.lazyMmaps m.current)
  generalize m.setTask i _ = m₁ at hset ⊢
  split
  · exact hset
  have hc := hset.setVmm (copyIds_wx m₁.task.cr3 ids hset.vmm)
  split
  · exact hc.setTask i (hset.lazyMmaps i)
  · exact hc

theorem Exclusive.retire (h : m.Exclusive) (i : Slot) : (m.retire i).Exclusive := by
  have hreap : (m.taskReapResources i).Exclusive := by
    simp only [taskReapResources]
    refine Exclusive.setTask (h.setVmm ?_) i (h.lazyMmaps i)
    split_ifs
    · exact Vmm.Pages.destroy h.vmm _
    · exact h.vmm
  simp only [Mm.retire]
  exact hreap.setTask i (hreap.lazyMmaps i)

theorem Exclusive.sysFork (h : m.Exclusive) (ok fds : Bool) : (m.sysFork ok fds).Exclusive := by
  have hc := h.sysClone ok fds []
  unfold Mm.sysFork
  generalize m.sysClone ok fds [] = r at hc ⊢
  split
  · exact hc
  · next m₁ i =>
    have hs := hc.setVmm (Vmm.Pages.clone Vmm.wx_markable hc.vmm m₁.task.cr3)
    dsimp only at hs
    generalize m₁.vmm.vmmUserSpaceClone m₁.task.cr3 = q at hs ⊢
    split
    · exact hs.retire i
    · exact hs.setTask i (hs.lazyMmaps i)

theorem Exclusive.perform (h : m.Exclusive) {c : MmCall} (hc : Admits m c) :
    (m.perform c).Exclusive := by
  cases c with
  | mmap addr len prot flags fd off => exact h.sysMmap ..
  | munmap addr len fs gs => exact kept_exclusive.sysMunmap h ..
  | mprotect addr len prot => exact kept_exclusive.sysMprotect h ..
  | mremap oldAddr oldSize newSize flags newAddr fs gs => exact kept_exclusive.sysMremap h ..
  | brk addr => exact h.sysBrk addr
  | lazyFault addr write fetch => exact h.taskLazyPageFault ..
  | cowFault addr => exact h.setVmm (Vmm.Pages.cowFault Vmm.wx_promotable h.vmm _ _)
  | copyTo i dst data =>
    simp only [Mm.perform]
    split
    · exact h.setVmm (Vmm.Pages.userCopyToCr3 Vmm.wx_promotable h.vmm _ _ _)
    · exact h
  | store va b => exact h.setVmm (Vmm.Pages.userStore Vmm.wx_promotable h.vmm _ _ _)
  | clone ok fds ids => exact h.sysClone ..
  | fork ok fds => exact h.sysFork ..
  | execve file a =>
    refine h.sysExecve (fun f hf ↦ ?_) a
    subst hf
    exact hc
  | launch file a =>
    refine h.launch (fun f hf ↦ ?_) a
    subst hf
    exact hc
  | exit next =>
    simp only [Mm.perform, Mm.sysExit]
    split
    · exact h
    · refine Exclusive.setTask ?_ _ (h.lazyMmaps m.current)
      exact ⟨Vmm.Pages.activate h.vmm _, h.lazyMmaps⟩
  | reap i =>
    simp only [Mm.perform, Mm.reap]
    split
    · exact h.retire i
    · exact h
  | switch next =>
    simp only [Mm.perform, Mm.switchTo]
    split
    · exact ⟨Vmm.Pages.activate h.vmm _, h.lazyMmaps⟩
    · exact h

theorem Exclusive.step (h : m.Exclusive) {c : MmCall} (hc : Admits m c) : (m.step c).Exclusive := by
  unfold Mm.step
  split
  · exact h
  · exact h.perform hc

theorem boot_exclusive (pmm : Pmm) (bytes : ℕ → ℕ → UInt8) (fbPhys fbSize : ℕ) :
    (boot pmm bytes fbPhys fbSize).Exclusive :=
  ⟨fun _ _ ht ↦ (Tab.get?_slots_empty ht).elim, fun _ ↦ lazyWx_nil⟩

/-- No page that the processor finds is both writable, now or after a copy, and executable, as long
as the files that are executed keep their writable and their executable pages apart. -/
theorem write_xor_exec (pmm : Pmm) (bytes : ℕ → ℕ → UInt8) (fbPhys fbSize : ℕ) (l : List MmCall)
    (h : Along step Admits (boot pmm bytes fbPhys fbSize) l) (root va : ℕ) (e : Pte) (w u : Bool)
    (he : ((boot pmm bytes fbPhys fbSize).run l).vmm.cpuAccess root va = some (e, w, u)) :
    ¬ ((e.w = true ∨ e.cow = true) ∧ e.nx = false) := by
  have hrun : ((boot pmm bytes fbPhys fbSize).run l).Exclusive :=
    h.invariant (I := Exclusive) (fun _ _ hm hc ↦ hm.step hc)
      (boot_exclusive pmm bytes fbPhys fbSize)
  have hpage : WriteXorExec (va / pageSize) e := hrun.vmm.cpuAccess he
  rintro ⟨hwrite, hexec⟩
  have hnx := hpage (by simpa using hwrite)
  rw [hexec] at hnx
  cases hnx

def freeMemory : Pmm where
  regions := [⟨4096, 4224, 4096⟩]
  hhdm := 0xFFFF800000000000
  freePages := 128
  pageState := fun _ ↦ false
  reservedState := fun _ ↦ false
  pageRefs := fun _ ↦ 0
  ready := true

def onePage (flags : ℕ) : ExecFile where
  image := ⟨4096, true, false, 0x400000, 64, [⟨1, flags, 0, 0x400000, 0, 4096⟩],
    fun _ len ↦ some (List.replicate len 0)⟩
  bootfs := fun _ ↦ none

def runPage (flags : ℕ) : Mm :=
  (boot freeMemory (fun _ _ ↦ 0) 0 0).run [.launch (some (onePage flags)) ⟨[47, 97], [], []⟩]

/-- The loader gives a segment that asks to be readable, writable and executable all three. -/
theorem loader_maps_write_exec : (runPage 7).task.used = true ∧ (runPage 7).task.cr3 = 4096 ∧
    ∃ e w u, (runPage 7).vmm.cpuAccess 4096 0x400000 = some (e, w, u) ∧
      (e.w = true ∨ e.cow = true) ∧ e.nx = false := by
  obtain ⟨hused, hcr3, he⟩ : (runPage 7).task.used = true ∧ (runPage 7).task.cr3 = 4096 ∧
      (runPage 7).vmm.cpuAccess 4096 0x400000 =
      some (⟨⟨true, true, false, false, false, false, 0, 0⟩, 4097, false⟩, true, true) := by
        decide +kernel
  exact ⟨hused, hcr3, _, true, true, he, .inl rfl, rfl⟩

theorem onePage_apart : (onePage 5).Apart := by
  have hmaps : ∀ g, (onePage 5).Maps g → Vmm.segWrite g.2.flags = false := by
    rintro g ⟨-, -, -, -, hg | ⟨-, j, hj, -⟩⟩
    · have hlist : (onePage 5).image.segments (onePage 5).image.bias false (onePage 5).image.phdrs =
          [(0, ⟨1, 5, 0, 0x400000, 0, 4096⟩)] := by decide
      rw [hlist, List.mem_singleton] at hg
      subst hg
      decide
    · cases hj
  intro a b k ha _ hw
  rw [hmaps a ha] at hw
  cases hw

theorem write_xor_exec_one_page :
    (runPage 5).vmm.cpuAccess 4096 0x400000 =
      some (⟨⟨false, true, false, false, false, false, 0, 0⟩, 4097, false⟩, false, true) ∧
    ¬ (((⟨⟨false, true, false, false, false, false, 0, 0⟩, 4097, false⟩ : Pte).w = true ∨
      (⟨⟨false, true, false, false, false, false, 0, 0⟩, 4097, false⟩ : Pte).cow = true) ∧
      (⟨⟨false, true, false, false, false, false, 0, 0⟩, 4097, false⟩ : Pte).nx = false) := by
  have he : (runPage 5).vmm.cpuAccess 4096 0x400000 =
      some (⟨⟨false, true, false, false, false, false, 0, 0⟩, 4097, false⟩, false, true) := by
        decide +kernel
  have hrun : Along step Admits (boot freeMemory (fun _ _ ↦ 0) 0 0)
      [.launch (some (onePage 5)) ⟨[47, 97], [], []⟩] := ⟨onePage_apart, trivial⟩
  exact ⟨he, write_xor_exec _ _ _ _ _ hrun _ _ _ _ _ he⟩

end Mm

end YabroOS.Memory
