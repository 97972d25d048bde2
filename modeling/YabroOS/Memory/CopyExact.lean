import YabroOS.Memory.Brk
import YabroOS.Memory.CowExact
import YabroOS.Memory.Window

namespace YabroOS.Memory

open Lib Function

namespace Vmm

variable {s s' : Vmm} {root addr va dst len : ℕ} {e e' : Pte} {data : List UInt8}

def useCount (s : Vmm) (f : ℕ) : ℕ := (s.uses.map Prod.fst).count f

/-- The frames that an address space can write to, or that the allocator does not count, are used
once. What is left to be shared are counted pages that are read-only or marked for copying. -/
def Unaliased (s : Vmm) (root : ℕ) : Prop :=
  ∀ va e, s.vmmUserTranslateCr3 root va = some e → e.w = true ∨ s.pmm.pool.exempt e.frame →
    s.useCount e.frame = 1

theorem useCount_pos (he : s.vmmUserTranslateCr3 root va = some e) : 1 ≤ s.useCount e.frame :=
  Multiset.count_pos.2 (frame_mem_uses he)

theorem page_unique {r x : ℕ} (he : s.vmmUserTranslateCr3 root va = some e)
    (hone : s.useCount e.frame = 1) (hx : s.vmmUserTranslateCr3 r x = some e')
    (hf : e'.frame = e.frame) : r = root ∧ Pmm.pageOf x = Pmm.pageOf va := by
  by_contra hne
  have hpage : s.vmmUserTranslateCr3 root (Pmm.pageOf va) = some e := by rw [translate_pageOf, he]
  obtain ⟨l, hl, -, hnone, -⟩ := translate_uses hpage
  have hsp : (s.setLeaf root (Pmm.pageOf va) none).spaces = setLeafIn s.spaces root (Pmm.pageOf va)
      none := rfl
  have hkeep := pages_setLeaf hpage hsp rfl r x (not_and_or.1 hne)
  rw [hx] at hkeep
  have hmem : e'.frame ∈ l.map Prod.fst := by
    rw [← hnone]
    exact frame_mem_uses hkeep
  have hcount : s.useCount e.frame = (l.map Prod.fst).count e.frame + 1 := by
    rw [useCount, hl, Multiset.map_cons]
    exact Multiset.count_cons_self _ _
  have hpos : 0 < (l.map Prod.fst).count e.frame := Multiset.count_pos.2 (hf ▸ hmem)
  omega

theorem Remaps.useCount_le (h : Remaps s s' root va) {f : ℕ} (hf : f ∈ s.uses.map Prod.fst) :
    s'.useCount f ≤ s.useCount f := by
  cases h with
  | same hsp _ => simp only [useCount, uses, hsp, le_refl]
  | moved e e' he hsp _ hframe =>
    obtain ⟨l, hl, hset, -⟩ := translate_uses he
    have huses : s'.uses = Tab.claim e' ::ₘ l := by rw [uses, hsp, hset]
    simp only [useCount, huses, hl, Multiset.map_cons]
    rcases hframe with heq | ⟨-, hnot⟩
    · exact le_of_eq (by rw [show (Tab.claim e').1 = (Tab.claim e).1 from heq])
    · have hne : f ≠ (Tab.claim e').1 := fun hc ↦ hnot (by rwa [hc] at hf)
      rw [Multiset.count_cons_of_ne hne]
      exact Multiset.count_le_count_cons _ _ _

theorem cowFault_alone (h : s.Framed) (hun : s.Unaliased root)
    (he : s.vmmUserTranslateCr3 root (Pmm.pageOf addr) = some e)
    (hc : s.vmmUserCowFault root addr = (s', 0)) :
    ∃ e', s'.vmmUserTranslateCr3 root (Pmm.pageOf addr) = some e' ∧ s'.useCount e'.frame = 1 := by
  obtain ⟨hre, hh⟩ := cowFault_remaps h.backed hc
  obtain ⟨l, hl, hset, -⟩ := translate_uses he
  simp only [vmmUserCowFault, he] at hc
  split_ifs at hc with hflags hone
  · cases hc
  · cases hc
    have hpage :
        (s.setLeaf root (Pmm.pageOf addr)
          (some { e with w := true, cow := false })).vmmUserTranslateCr3 root
        (Pmm.pageOf addr) = some { e with w := true, cow := false } := translate_setLeaf he rfl rfl
    refine ⟨_, hpage,
      le_antisymm ((hre.useCount_le (frame_mem_uses he)).trans ?_) (useCount_pos hpage)⟩
    by_cases hex : s.pmm.pool.exempt e.frame
    · exact (hun _ _ he (.inr hex)).le
    · refine ((h.backed e.frame (frame_mem_uses he) hex).2).trans ?_
      simp only [Pmm.pmmPageRefcount, Pmm.pageOf_mul, Pmm.mul_div_pageSize] at hone
      split_ifs at hone
      exact hone.le
  · split at hc
    · cases hc
    next pmm np ha =>
    split_ifs at hc
    swap
    · cases hc
    have hs' := (Prod.mk.inj hc).1
    have hspaces : s'.spaces = setLeafIn s.spaces root (Pmm.pageOf addr)
        (some { e with frame := np, u := true, w := true, cow := false, high := 0 }) := by
      rw [← hs']
      rfl
    refine ⟨_, translate_setLeaf he hspaces hh, ?_⟩
    have hnot := h.backed.not_mem (Pmm.pool_alloc ha)
    rw [hl, Multiset.map_cons] at hnot
    rw [useCount, uses, hspaces, hset, Multiset.map_cons]
    show Multiset.count np (np ::ₘ _) = 1
    rw [Multiset.count_cons_self,
      Multiset.count_eq_zero_of_notMem fun hm ↦ hnot (Multiset.mem_cons_of_mem hm)]

theorem Unaliased.cowFault (h : s.Framed) (hun : s.Unaliased root)
    (hc : s.vmmUserCowFault root addr = (s', 0)) : s'.Unaliased root := by
  obtain ⟨hre, hh⟩ := cowFault_remaps h.backed hc
  have hex : s'.pmm.pool.exempt = s.pmm.pool.exempt := by
    have hm := (moves_cowFault s root addr).exempt
    rwa [hc] at hm
  intro x e₂ he₂ halone
  by_cases hpage : Pmm.pageOf x = Pmm.pageOf addr
  · have hsome : ∃ e, s.vmmUserTranslateCr3 root (Pmm.pageOf addr) = some e := by
      cases hre with
      | same hsp _ =>
        refine ⟨e₂, ?_⟩
        rw [← translate_congr hsp hh, ← hpage, translate_pageOf, he₂]
      | moved e _ he _ _ _ => exact ⟨e, he⟩
    obtain ⟨e, he⟩ := hsome
    obtain ⟨e', he', hone⟩ := cowFault_alone h hun he hc
    rw [← hpage, translate_pageOf, he₂] at he'
    cases he'
    exact hone
  · have hold : s.vmmUserTranslateCr3 root x = some e₂ := by rw [← hre.translate_of_ne hh hpage, he₂]
    rw [hex] at halone
    exact le_antisymm ((hre.useCount_le (frame_mem_uses hold)).trans (hun x e₂ hold halone).le)
      (useCount_pos he₂)

/-- A page that a copy may write to: `vmm_user_range_ok` asks for it. -/
def Writable (s : Vmm) (root va : ℕ) : Prop :=
  ∃ e, s.vmmUserTranslateCr3 root va = some e ∧ e.u = true ∧ (e.w = true ∨ e.cow = true)

def Readable (s : Vmm) (root va : ℕ) : Prop :=
  ∃ e, s.vmmUserTranslateCr3 root va = some e ∧ e.u = true ∧
    s.pmm.physToVirtOk (e.frame * pageSize) = true

theorem writablePage_some {page : ℕ} (hc : s.writablePage root page = (s', some e')) :
    s.Writable root page ∧ s'.vmmUserTranslateCr3 root page = some e' ∧ e'.u = true ∧ e'.w = true ∧
      (s' = s ∨ s.vmmUserCowFault root page = (s', 0)) := by
  simp only [writablePage] at hc
  split at hc
  · cases hc
  next e he =>
  split_ifs at hc with hu hw hcow hrc
  · cases hc
  · cases hc
    have hu' : e'.u = true := by simpa using hu
    exact ⟨⟨e', he, hu', .inl hw⟩, he, hu', hw, .inl rfl⟩
  · cases hc
  · cases hc
  · have hrc' : (s.vmmUserCowFault root page).2 = 0 := not_not.1 hrc
    split at hc
    · cases hc
    next e₁ he₁ =>
    split_ifs at hc with hbad
    · cases hc
    · cases hc
      have hgood : e'.u = true ∧ e'.w = true := by simpa using hbad
      exact ⟨⟨e, he, by simpa using hu, .inr (by simpa using hcow)⟩, he₁, hgood.1, hgood.2,
        .inr (Prod.ext rfl hrc')⟩

/-- From `s` to `s'` a range has got some bytes, and its pages are readable. Nothing else has
changed, and the pages of the range could be written to. -/
structure CopiedTo (root dst : ℕ) (data : List UInt8) (s s' : Vmm) : Prop where
  holds : s'.Holds root dst data
  before : ∀ x, dst ≤ x → x < dst + data.length → s.Writable root x
  after : ∀ x, dst ≤ x → x < dst + data.length → s'.Readable root x
  bytes : ∀ r x, r ≠ root ∨ x < dst ∨ dst + data.length ≤ x → s'.userByte r x = s.userByte r x
  pages : ∀ r x, r ≠ root ∨ (∀ y, dst ≤ y → y < dst + data.length → Pmm.pageOf x ≠ Pmm.pageOf y) →
    s'.vmmUserTranslateCr3 r x = s.vmmUserTranslateCr3 r x
  hhdm : s'.pmm.hhdm = s.pmm.hhdm

theorem CopiedTo.nil (root dst : ℕ) (s : Vmm) : CopiedTo root dst [] s s where
  holds := nofun
  before x hle hlt := by
    rw [List.length_nil] at hlt
    omega
  after x hle hlt := by
    rw [List.length_nil] at hlt
    omega
  bytes _ _ _ := rfl
  pages _ _ _ := rfl
  hhdm := rfl

theorem CopiedTo.append {s₁ s₂ : Vmm} {d₁ d₂ : List UInt8} (h₁ : CopiedTo root dst d₁ s s₁)
    (h₂ : CopiedTo root (dst + d₁.length) d₂ s₁ s₂) (hal : d₂ ≠ [] → pageSize ∣ dst + d₁.length) :
    CopiedTo root dst (d₁ ++ d₂) s s₂ := by
  have hapart : ∀ x y, x < dst + d₁.length → dst + d₁.length ≤ y → y < dst + d₁.length + d₂.length →
      Pmm.pageOf x ≠ Pmm.pageOf y := by
    intro x y hx hy hlt
    obtain ⟨k, hk⟩ := hal (fun hnil ↦ by
      rw [hnil, List.length_nil] at hlt
      omega)
    rw [hk] at hx hy
    simp only [Pmm.pageOf, pageSize] at *
    omega
  refine ⟨fun i hi ↦ ?_, fun x hle hlt ↦ ?_, fun x hle hlt ↦ ?_, fun r x hx ↦ ?_, fun r x hx ↦ ?_,
    h₂.hhdm.trans h₁.hhdm⟩
  · by_cases hlow : i < d₁.length
    · rw [h₂.bytes root _ (.inr (.inl (by omega))), h₁.holds i hlow, List.getElem_append_left hlow]
    · rw [List.length_append] at hi
      have hnext := h₂.holds (i - d₁.length) (by omega)
      rw [List.getElem_append_right (by omega), ← hnext]
      congr 1
      omega
  · rw [List.length_append] at hlt
    by_cases hlow : x < dst + d₁.length
    · exact h₁.before x hle hlow
    · obtain ⟨e, he, hflags⟩ := h₂.before x (by omega) (by omega)
      refine ⟨e, ?_, hflags⟩
      rw [← h₁.pages root x (.inr fun y _ hy ↦ (hapart y x hy (by omega) (by omega)).symm), he]
  · rw [List.length_append] at hlt
    by_cases hlow : x < dst + d₁.length
    · obtain ⟨e, he, hu, hreach⟩ := h₁.after x hle hlow
      refine ⟨e, ?_, hu, (Pmm.physToVirtOk_congr h₂.hhdm _).trans hreach⟩
      rw [h₂.pages root x (.inr fun y hy hy' ↦ hapart x y hlow hy hy'), he]
    · exact h₂.after x (by omega) (by omega)
  · rw [List.length_append] at hx
    rw [h₂.bytes r x (by omega), h₁.bytes r x (by omega)]
  · rw [List.length_append] at hx
    rw [h₂.pages r x (hx.imp_right fun hne y hle hlt ↦ hne y (by omega) (by omega)),
      h₁.pages r x (hx.imp_right fun hne y hle hlt ↦ hne y hle (by omega))]

theorem pageOf_within {x : ℕ} {n : ℕ} (hn : dst % pageSize + n ≤ pageSize) (hle : dst ≤ x)
    (hlt : x < dst + n) :
    Pmm.pageOf x = Pmm.pageOf dst ∧ x % pageSize = dst % pageSize + (x - dst) := by
  simp only [Pmm.pageOf, pageSize] at *
  omega

theorem copiedTo_round {s₁ : Vmm} (h : s.Framed) (hun : s.Unaliased root) (hd : data ≠ [])
    (hn : dst % pageSize + data.length ≤ pageSize)
    (hw : s.writablePage root (Pmm.pageOf dst) = (s₁, some e))
    (hreach : s₁.pmm.physToVirtOk (e.frame * pageSize) = true) :
    CopiedTo root dst data s (s₁.putBytes e.frame (dst % pageSize) data) ∧
      (s₁.putBytes e.frame (dst % pageSize) data).Framed ∧
        (s₁.putBytes e.frame (dst % pageSize) data).Unaliased root := by
  obtain ⟨⟨e₀, he₀, hflags⟩, he, hu, hwrite, hsame⟩ := writablePage_some hw
  obtain ⟨hre, hh⟩ := writablePage_remaps h.backed hw
  have hidem : Pmm.pageOf (Pmm.pageOf dst) = Pmm.pageOf dst := Pmm.pageOf_mul _
  rw [hidem] at hre
  have hpos : 0 < data.length := List.length_pos_iff.2 hd
  have hframed : s₁.Framed := by
    have hk := (Keeps.writablePage s root (Pmm.pageOf dst)).framed h
    rwa [hw] at hk
  have hun₁ : s₁.Unaliased root := by
    rcases hsame with rfl | hfault
    · exact hun
    · exact hun.cowFault h hfault
  have hone : s₁.useCount e.frame = 1 := hun₁ _ e he (.inl hwrite)
  have htr : ∀ r x, (s₁.putBytes e.frame (dst % pageSize) data).vmmUserTranslateCr3 r x =
      s₁.vmmUserTranslateCr3 r x :=
    fun r x ↦ translate_congr rfl rfl
  have hpage : ∀ x, dst ≤ x → x < dst + data.length → s₁.vmmUserTranslateCr3 root x = some e := by
    intro x hle hlt
    rw [← translate_pageOf, (pageOf_within hn hle hlt).1, he]
  refine ⟨⟨fun i hi ↦ ?_, fun x hle hlt ↦ ?_, fun x hle hlt ↦ ?_, fun r x hx ↦ ?_, fun r x hx ↦ ?_,
    hh⟩, ?_, ?_⟩
  · rw [putBytes_reads (hpage (dst + i) (by omega) (by omega)) hi, List.getElem?_eq_getElem hi]
    have hoff := (pageOf_within hn (show dst ≤ dst + i by omega) (by omega)).2
    omega
  · refine ⟨e₀, ?_, hflags⟩
    rw [← translate_pageOf, (pageOf_within hn hle hlt).1, he₀]
  · refine ⟨e, ?_, hu, hreach⟩
    rw [htr, hpage x hle hlt]
  · have hsave : s₁.userByte r x = s.userByte r x := by
      by_cases hr : r = root
      · subst hr
        exact hre.userByte hh
      · exact hre.other hh hr
    rw [← hsave]
    refine putBytes_userByte fun e' he' hf ↦ ?_
    obtain ⟨rfl, hxp⟩ := page_unique he hone he' hf
    rw [hidem] at hxp
    simp only [Pmm.pageOf, pageSize] at *
    omega
  · rw [htr]
    by_cases hr : r = root
    · subst hr
      exact hre.translate_of_ne hh (hx.resolve_left (fun hc ↦ hc rfl) dst le_rfl (by omega))
    · exact hre.translate_other hh hr
  · exact (Keeps.of_bytes _ rfl).framed hframed
  · intro x e' he' halone
    rw [htr] at he'
    exact hun₁ x e' he' halone

theorem copyToLoop_copiedTo (fuel : ℕ) (h : s.Framed) (hun : s.Unaliased root)
    (hc : copyToLoop root fuel s dst data = (s', 0)) : CopiedTo root dst data s s' := by
  induction fuel generalizing s dst data with
  | zero =>
    simp only [copyToLoop] at hc
    split_ifs at hc with hd
    · cases hc
      subst hd
      exact .nil root dst _
    · cases hc
  | succ fuel ih =>
    simp only [copyToLoop] at hc
    split_ifs at hc with hd
    · cases hc
      subst hd
      exact .nil root dst _
    have hmod := Nat.mod_lt dst (show 0 < pageSize by decide)
    cases hw : s.writablePage root (Pmm.pageOf dst) with
    | mk s₁ o =>
    rw [hw] at hc
    cases o with
    | none => cases hc
    | some e =>
      simp only at hc
      split_ifs at hc with hreach
      swap
      · cases hc
      set n := pageSize - dst % pageSize with hn
      have htake : (data.take n).length = min n data.length := List.length_take
      have hlen : dst % pageSize + (data.take n).length ≤ pageSize := by omega
      have hne : data.take n ≠ [] := fun hnil ↦ by
        rw [hnil, List.length_nil] at htake
        have hpos : 0 < data.length := List.length_pos_iff.2 hd
        omega
      obtain ⟨hround, hframed, hun₂⟩ := copiedTo_round h hun hne hlen hw hreach
      by_cases hlast : data.length ≤ n
      · rw [List.drop_eq_nil_of_le hlast, List.take_of_length_le hlast] at hc
        rw [List.take_of_length_le hlast] at hround
        have hend : copyToLoop root fuel (s₁.putBytes e.frame (dst % pageSize) data) (dst + n) [] =
            (s₁.putBytes e.frame (dst % pageSize) data, 0) := by
          cases fuel with
          | zero => rfl
          | succ _ => rfl
        rw [hend] at hc
        cases hc
        exact hround
      · have hnlen : (data.take n).length = n := by omega
        have hrest : CopiedTo root (dst + (data.take n).length) (data.drop n)
            (s₁.putBytes e.frame (dst % pageSize) (data.take n)) s' := by
          rw [hnlen]
          exact ih hframed hun₂ hc
        have hall := hround.append hrest fun _ ↦ by
          refine ⟨dst / pageSize + 1, ?_⟩
          simp only [pageSize] at *
          omega
        rwa [List.take_append_drop] at hall

theorem copyFromLoop_holds (fuel : ℕ) {src : ℕ} (hf : data.length ≤ fuel)
    (hdata : s.Holds root src data)
    (hread : ∀ x, src ≤ x → x < src + data.length → s.Readable root x) :
    copyFromLoop s root fuel src data.length = some data := by
  induction fuel generalizing src data with
  | zero =>
    have hd : data = [] := List.eq_nil_of_length_eq_zero (by omega)
    subst hd
    rfl
  | succ fuel ih =>
    by_cases hd : data = []
    · subst hd
      rfl
    have hpos : 0 < data.length := List.length_pos_iff.2 hd
    have hmod := Nat.mod_lt src (show 0 < pageSize by decide)
    obtain ⟨e, he, hu, hreach⟩ := hread src le_rfl (by omega)
    simp only [copyFromLoop, if_neg hpos.ne', translate_pageOf, he, if_pos (And.intro hu hreach)]
    set n := min (pageSize - src % pageSize) data.length with hn
    have hdrop : (data.drop n).length = data.length - n := List.length_drop
    have hnext : s.Holds root (src + n) (data.drop n) := fun i hi ↦ by
      rw [List.getElem_drop, ← hdata (n + i) (by omega), Nat.add_assoc]
    have hrest := ih (by omega) hnext (fun x hle hlt ↦ hread x (by omega) (by omega))
    rw [← hdrop, hrest, Option.map_some]
    have hfirst : (List.range n).map (fun i ↦ s.bytes e.frame (src % pageSize + i)) =
        data.take n := by
      refine List.ext_getElem (by simp [hn]) fun i hi hi' ↦ ?_
      rw [List.length_map, List.length_range] at hi
      have hwithin := pageOf_within (n := n) (by omega) (show src ≤ src + i by omega) (by omega)
      have hbyte := hdata i (by omega)
      have hpage : s.vmmUserTranslateCr3 root (src + i) = some e := by
        rw [← translate_pageOf, hwithin.1, translate_pageOf, he]
      rw [userByte, hpage, Option.map_some, hwithin.2, Nat.add_sub_cancel_left] at hbyte
      simpa using Option.some.inj hbyte
    rw [hfirst, List.take_append_drop]

theorem vmmUserRangeOk_iff (hu : s.user = some root) (hlen : len ≠ 0) :
    s.vmmUserRangeOk va len true = true ↔ ∀ x, va ≤ x → x < va + len → s.Writable root x := by
  have hpage : ∀ i, (s.vmmUserTranslate ((va / pageSize + i) * pageSize) =
      s.vmmUserTranslateCr3 root ((va / pageSize + i) * pageSize)) :=
    fun i ↦ by simp only [vmmUserTranslate, hu]
  constructor
  · intro hok x hle hlt
    simp only [vmmUserRangeOk] at hok
    split_ifs at hok with hbad
    have hall := List.all_eq_true.1 hok (x / pageSize - va / pageSize) (List.mem_range.2 (by
      simp only [pageSize]
      omega))
    have haddr : (va / pageSize + (x / pageSize - va / pageSize)) * pageSize = Pmm.pageOf x := by
      simp only [Pmm.pageOf, pageSize]
      omega
    rw [hpage, haddr, translate_pageOf] at hall
    cases he : s.vmmUserTranslateCr3 root x with
    | none =>
      rw [he] at hall
      cases hall
    | some e =>
      rw [he] at hall
      exact ⟨e, he, by simpa using hall⟩
  · intro hall
    obtain ⟨e₁, he₁, -⟩ := hall va le_rfl (by omega)
    obtain ⟨e₂, he₂, -⟩ := hall (va + len - 1) (by omega) (by omega)
    have hfirst := translate_lt he₁
    have hlast := translate_lt he₂
    have hgood : ¬ (s.user = none ∨ len = 0 ∨ canonicalUser va = false ∨ userTop - va < len) := by
      rintro (hc | hc | hc | hc)
      · rw [hu] at hc
        cases hc
      · exact hlen hc
      · simp [canonicalUser, hfirst] at hc
      · omega
    simp only [vmmUserRangeOk, if_neg hgood]
    refine List.all_eq_true.2 fun i hi ↦ ?_
    rw [List.mem_range] at hi
    obtain ⟨e, he, hue, hwe⟩ := hall (max va ((va / pageSize + i) * pageSize)) (le_max_left _ _) (by
      simp only [pageSize] at *
      omega)
    have haddr : Pmm.pageOf (max va ((va / pageSize + i) * pageSize)) = (va / pageSize + i) *
        pageSize := by
      simp only [Pmm.pageOf, pageSize] at *
      omega
    rw [← translate_pageOf, haddr] at he
    rw [hpage, he]
    simpa [hue] using hwe

def touched (va len : ℕ) : List ℕ :=
  if len = 0 then []
  else (List.range ((va + len - 1) / pageSize - va / pageSize + 1)).map
    (fun i ↦ (va / pageSize + i) * pageSize)

def cowPages (s : Vmm) (root va len : ℕ) : ℕ :=
  (touched va len).countP (fun p ↦ (s.vmmUserTranslateCr3 root p).any (fun e ↦ e.cow && !e.w))

theorem touched_eq (hlen : len ≠ 0) :
    touched va len = Pmm.pageOf va :: touched (va + (pageSize - va % pageSize))
    (len - (pageSize - va % pageSize)) := by
  have hmod := Nat.mod_lt va (show 0 < pageSize by decide)
  rw [touched, if_neg hlen, List.range_succ_eq_map, List.map_cons, List.map_map, Nat.add_zero]
  congr 1
  by_cases hlast : len - (pageSize - va % pageSize) = 0
  · have hzero : (va + len - 1) / pageSize - va / pageSize = 0 := by
      simp only [pageSize] at *
      omega
    rw [hlast, touched, if_pos rfl, hzero, List.range_zero, List.map_nil]
  · have hnext : (va + (pageSize - va % pageSize)) / pageSize = va / pageSize + 1 := by
      simp only [pageSize]
      omega
    have hend : va + (pageSize - va % pageSize) + (len - (pageSize - va % pageSize)) = va +
        len := by omega
    rw [touched, if_neg hlast, hnext, hend]
    have hcount : (va + len - 1) / pageSize - va / pageSize = (va + len - 1) / pageSize -
        (va / pageSize + 1) + 1 := by
      simp only [pageSize] at *
      omega
    rw [hcount]
    refine List.map_congr_left fun i _ ↦ ?_
    simp only [Function.comp_apply, Nat.succ_eq_add_one]
    congr 1
    omega

theorem mem_touched {p : ℕ} (hp : p ∈ touched va len) :
    ∃ x, va ≤ x ∧ x < va + len ∧ p = Pmm.pageOf x := by
  unfold touched at hp
  split_ifs at hp with hlen
  · cases hp
  obtain ⟨i, hi, rfl⟩ := List.mem_map.1 hp
  rw [List.mem_range] at hi
  refine ⟨max va ((va / pageSize + i) * pageSize), le_max_left _ _, ?_, ?_⟩
  all_goals
    simp only [Pmm.pageOf, pageSize] at *
    omega

/-- `pmm_phys_to_virt` reaches the memory that the allocator tracks, and the pages of a range. -/
structure Reached (s : Vmm) (root va len : ℕ) : Prop where
  memory : ∀ f, f * pageSize < pmmTrackLimit → s.pmm.physToVirtOk (f * pageSize) = true
  pages : ∀ x e, va ≤ x → x < va + len → s.vmmUserTranslateCr3 root x = some e →
    s.pmm.physToVirtOk (e.frame * pageSize) = true

theorem alloc_freePages {p p' : Pmm} {f : ℕ} (ha : p.pmmAllocPage = (p', some f)) :
    p'.freePages = p.freePages - 1 := by
  simp only [Pmm.pmmAllocPage] at ha
  split_ifs at ha
  · cases ha
  · split at ha
    · cases ha
    · cases ha
      rfl

theorem free_freePages (p : Pmm) (addr : ℕ) : p.freePages ≤ (p.pmmFreePage addr).freePages := by
  simp only [Pmm.pmmFreePage]
  split_ifs
  all_goals
    first
    | exact le_rfl
    | exact Nat.le_succ _

theorem cowFault_free (hok : s.pmm.Ok)
    (hmem : ∀ f, f * pageSize < pmmTrackLimit → s.pmm.physToVirtOk (f * pageSize) = true)
    (he : s.vmmUserTranslateCr3 root (Pmm.pageOf addr) = some e) (hu : e.u = true)
    (hw : e.w = false) (hcow : e.cow = true)
    (hreach : s.pmm.physToVirtOk (e.frame * pageSize) = true) (hfree : s.pmm.freePages ≠ 0) :
    ∃ s' e', s.vmmUserCowFault root addr = (s', 0) ∧
      s'.vmmUserTranslateCr3 root (Pmm.pageOf addr) = some e' ∧ e'.u = true ∧
      e'.w = true ∧ s'.pmm.physToVirtOk (e'.frame * pageSize) = true ∧
        s.pmm.freePages ≤ s'.pmm.freePages + 1 := by
  have hflags : ¬ (e.u = false ∨ e.cow = false ∨ e.w = true) := by simp [hu, hcow, hw]
  simp only [vmmUserCowFault, he, if_neg hflags]
  split_ifs
  · exact ⟨_, _, rfl, translate_setLeaf he rfl rfl, hu, rfl, hreach, Nat.le_succ _⟩
  obtain ⟨pmm, np, ha⟩ := hok.holding.alloc_isSome (Nat.pos_of_ne_zero hfree)
  obtain ⟨hav, hhdm, -⟩ := Pmm.pmmAllocPage_some ha
  have hlt : np * pageSize < pmmTrackLimit := by
    simp only [Pmm.available, decide_eq_true_eq] at hav
    exact hav.1
  have hnp : pmm.physToVirtOk (np * pageSize) = true :=
    (Pmm.physToVirtOk_congr hhdm _).trans (hmem np hlt)
  have hold : pmm.physToVirtOk (e.frame * pageSize) = true :=
    (Pmm.physToVirtOk_congr hhdm _).trans hreach
  have hhdm' : (pmm.pmmFreePage (e.frame * pageSize)).hhdm = s.pmm.hhdm :=
    (Pmm.pmmFreePage_hhdm _ _).trans hhdm
  simp only [ha, if_pos (And.intro hold hnp)]
  refine ⟨_, _, rfl, translate_setLeaf he rfl hhdm', rfl, rfl, ?_, ?_⟩
  · exact (Pmm.physToVirtOk_congr (Pmm.pmmFreePage_hhdm _ _) _).trans hnp
  · have hstep := alloc_freePages ha
    have hback := free_freePages pmm (e.frame * pageSize)
    show s.pmm.freePages ≤ (pmm.pmmFreePage (e.frame * pageSize)).freePages + 1
    omega

theorem writablePage_free (hok : s.pmm.Ok)
    (hmem : ∀ f, f * pageSize < pmmTrackLimit → s.pmm.physToVirtOk (f * pageSize) = true)
    (he : s.vmmUserTranslateCr3 root (Pmm.pageOf va) = some e) (hu : e.u = true)
    (hw : e.w = true ∨ e.cow = true) (hreach : s.pmm.physToVirtOk (e.frame * pageSize) = true)
    (hfree : (if e.cow && !e.w then 1 else 0) ≤ s.pmm.freePages) :
    ∃ s' e', s.writablePage root (Pmm.pageOf va) = (s', some e') ∧
      s'.pmm.physToVirtOk (e'.frame * pageSize) = true ∧
      s.pmm.freePages ≤ s'.pmm.freePages + (if e.cow && !e.w then 1 else 0) := by
  have hidem : Pmm.pageOf (Pmm.pageOf va) = Pmm.pageOf va := Pmm.pageOf_mul _
  cases hwe : e.w with
  | true =>
    refine ⟨s, e, ?_, hreach, by simp⟩
    simp [writablePage, he, hu, hwe]
  | false =>
    have hcow : e.cow = true := hw.resolve_left (by simp [hwe])
    rw [hcow, hwe] at hfree
    rw [← hidem] at he
    obtain ⟨s', e', hfault, he', hu', hw', hreach', hcount⟩ :=
      cowFault_free hok hmem he hu hwe hcow hreach (Nat.one_le_iff_ne_zero.1 hfree)
    rw [hidem] at he he'
    refine ⟨s', e', ?_, hreach', by simpa [hcow] using hcount⟩
    simp [writablePage, he, hu, hwe, hcow, hfault, he', hu', hw']

theorem copyToLoop_free (fuel : ℕ) (hf : data.length ≤ fuel) (hok : s.pmm.Ok) (h : s.Framed)
    (hw : ∀ x, dst ≤ x → x < dst + data.length → s.Writable root x)
    (hreach : s.Reached root dst data.length)
    (hfree : s.cowPages root dst data.length ≤ s.pmm.freePages) :
    (copyToLoop root fuel s dst data).2 = 0 := by
  induction fuel generalizing s dst data with
  | zero =>
    have hd : data = [] := List.eq_nil_of_length_eq_zero (by omega)
    simp only [copyToLoop, if_pos hd]
  | succ fuel ih =>
    by_cases hd : data = []
    · simp only [copyToLoop, if_pos hd]
    have hpos : 0 < data.length := List.length_pos_iff.2 hd
    have hmod := Nat.mod_lt dst (show 0 < pageSize by decide)
    obtain ⟨e, he, hu, hwe⟩ := hw dst le_rfl (by omega)
    have hpage : s.vmmUserTranslateCr3 root (Pmm.pageOf dst) = some e := by rw [translate_pageOf, he]
    have hcount : s.cowPages root dst data.length =
        s.cowPages root (dst + (pageSize - dst % pageSize))
        (data.length - (pageSize - dst % pageSize)) + (if e.cow && !e.w then 1 else 0) := by
      rw [cowPages, touched_eq hpos.ne', List.countP_cons, hpage]
      rfl
    obtain ⟨s₁, e₁, hround, hreach₁, hless⟩ := writablePage_free hok hreach.memory hpage hu hwe
      (hreach.pages dst e le_rfl (by omega) he) (by omega)
    obtain ⟨hre, hh⟩ := writablePage_remaps h.backed hround
    rw [show Pmm.pageOf (Pmm.pageOf dst) = Pmm.pageOf dst from Pmm.pageOf_mul _] at hre
    have hkeeps : s.Keeps s₁ := by
      have hk := Keeps.writablePage s root (Pmm.pageOf dst)
      rwa [hround] at hk
    simp only [copyToLoop, if_neg hd, hround, if_pos hreach₁]
    set n := pageSize - dst % pageSize with hn
    set s₂ := s₁.putBytes e₁.frame (dst % pageSize) (data.take n) with hs₂
    have hlen : (data.drop n).length = data.length - n := List.length_drop
    -- The rest of the range lies in other pages.
    have htr : ∀ x, dst + n ≤ x → s₂.vmmUserTranslateCr3 root x = s.vmmUserTranslateCr3 root x := by
      intro x hx
      have hne : Pmm.pageOf x ≠ Pmm.pageOf dst := by
        simp only [Pmm.pageOf, pageSize] at *
        omega
      rw [← hre.translate_of_ne hh hne]
      exact translate_congr rfl rfl
    have hrest : s₂.cowPages root (dst + n) (data.length - n) =
        s.cowPages root (dst + n) (data.length - n) := by
      refine List.countP_congr fun p hp ↦ ?_
      obtain ⟨x, hx, -, rfl⟩ := mem_touched hp
      rw [translate_pageOf, translate_pageOf, htr x hx]
    refine ih (by omega) (hkeeps.moves.ok hok) ((Keeps.of_bytes _ rfl).framed (hkeeps.framed h))
      (fun x hle hlt ↦ ?_) ⟨fun f hlt ↦ ?_, fun x e' hle hlt he' ↦ ?_⟩ ?_
    · rw [hlen] at hlt
      obtain ⟨e', he', hflags⟩ := hw x (by omega) (by omega)
      exact ⟨e', (htr x hle).trans he', hflags⟩
    · exact (Pmm.physToVirtOk_congr hh _).trans (hreach.memory f hlt)
    · rw [hlen] at hlt
      rw [htr x hle] at he'
      exact (Pmm.physToVirtOk_congr hh _).trans (hreach.pages x e' (by omega) (by omega) he')
    · rw [hlen, hrest]
      show _ ≤ s₁.pmm.freePages
      omega

theorem unaliased_of_uses
    (h : ∀ p ∈ s.uses, p.2 = .sole ∨
      (p.1 * pageSize < pmmTrackLimit → s.pmm.reservedState p.1 = true) →
    s.useCount p.1 = 1) : s.Unaliased root := by
  intro va e he halone
  obtain ⟨l, hl, -⟩ := translate_uses he
  refine h (Tab.claim e) ?_ ?_
  · rw [hl]
    exact Multiset.mem_cons_self _ _
  · refine halone.imp (fun hw ↦ ?_) (Pmm.exempt_iff s.pmm e.frame).1
    simp [Tab.claim, hw]

theorem reached_of_uses (hh : s.pmm.hhdm = 0xFFFF800000000000)
    (h : ∀ p ∈ s.uses, p.1 * pageSize < pmmTrackLimit) : s.Reached root va len := by
  have hmem : ∀ f, f * pageSize < pmmTrackLimit → s.pmm.physToVirtOk (f * pageSize) = true := by
    intro f hf
    rw [Pmm.physToVirtOk, decide_eq_true_eq, hh]
    simp only [pmmTrackLimit] at hf
    omega
  refine ⟨hmem, fun x e _ _ he ↦ hmem _ ?_⟩
  obtain ⟨l, hl, -⟩ := translate_uses he
  have hp := h (Tab.claim e) (by
    rw [hl]
    exact Multiset.mem_cons_self _ _)
  exact hp

end Vmm

namespace Mm

/-- In every reachable state a copy that succeeds can be read back and changes nothing outside its
range, and `vmm_user_range_ok` accepts the ranges to which a copy succeeds. -/
theorem user_copies (pmm : Pmm) (hok : pmm.Ok) (bytes : ℕ → ℕ → UInt8) (fbPhys fbSize : ℕ)
    (hfb : FbReserved pmm fbPhys fbSize) (l : List MmCall) (root va : ℕ) (data : List UInt8) :
    let s := ((boot pmm bytes fbPhys fbSize).run l).vmm
    (s.Unaliased root → ∀ s', s.userCopyToCr3 root va data = (s', 0) →
      s'.userCopyFromCr3 root va data.length = some data ∧
      (∀ r x, r ≠ root ∨ x < va ∨ va + data.length ≤ x → s'.userByte r x = s.userByte r x) ∧
      (∀ r x, s'.vmmUserTranslateCr3 r x ≠ s.vmmUserTranslateCr3 r x ∨
        s'.userByte r x ≠ s.userByte r x →
        r = root ∧ s.Writable root x)) ∧
    (s.user = some root → data ≠ [] →
      (s.vmmUserRangeOk va data.length true = true ↔ ∀ x, va ≤ x → x < va + data.length →
        s.Writable root x) ∧
      (s.vmmUserRangeOk va data.length true = true → s.Reached root va data.length →
        s.cowPages root va data.length ≤ s.pmm.freePages →
          (s.userCopyToCr3 root va data).2 = 0)) := by
  intro s
  have hframed : s.Framed :=
    (run_orderly hfb bytes (fun hh ↦ hh.elim) : ((boot pmm bytes fbPhys fbSize).run l).Orderly
      False).framed
  have hpmm : s.pmm.Ok := run_ok hok hfb bytes l
  refine ⟨fun hun s' hc ↦ ?_, fun hu hd ↦ ?_⟩
  · simp only [Vmm.userCopyToCr3] at hc
    split_ifs at hc with hroot
    · cases hc
    have hcopied := Vmm.copyToLoop_copiedTo data.length hframed hun hc
    refine ⟨?_, hcopied.bytes, fun r x hne ↦ ?_⟩
    · rw [Vmm.userCopyFromCr3, if_neg hroot]
      exact Vmm.copyFromLoop_holds data.length le_rfl hcopied.holds hcopied.after
    · by_contra hnot
      have hpages : r ≠ root ∨ ∀ y, va ≤ y → y < va + data.length → Pmm.pageOf x ≠ Pmm.pageOf y := by
        refine (not_and_or.1 hnot).imp_right fun hw y hle hlt hxy ↦ hw ?_
        obtain ⟨e, he, hflags⟩ := hcopied.before y hle hlt
        refine ⟨e, ?_, hflags⟩
        rw [← Vmm.translate_pageOf, hxy, Vmm.translate_pageOf, he]
      rcases hne with hne | hne
      · exact hne (hcopied.pages r x hpages)
      · refine hne (hcopied.bytes r x (hpages.imp_right fun hout ↦ ?_))
        by_contra hin
        exact hout x (by omega) (by omega) rfl
  · have hlen : data.length ≠ 0 := fun hz ↦ hd (List.eq_nil_of_length_eq_zero hz)
    refine ⟨Vmm.vmmUserRangeOk_iff hu hlen, fun hrange hreach hfree ↦ ?_⟩
    have hw := (Vmm.vmmUserRangeOk_iff hu hlen).1 hrange
    have hroot : root ≠ 0 := by
      rintro rfl
      obtain ⟨e, he, -⟩ := hw va le_rfl (by omega)
      rw [Vmm.vmmUserTranslateCr3] at he
      split_ifs at he
      split at he
      · cases he
      · rw [Vmm.walk_of_table (by simp [Pmm.table])] at he
        cases he
    rw [Vmm.userCopyToCr3, if_neg hroot]
    exact Vmm.copyToLoop_free data.length le_rfl hpmm hframed hw hreach hfree

/-- Two pages that a fork has marked for copying, the first with a byte that both processes have. -/
def forkedPages : Mm := (boot (clearFrames 128) (fun _ _ ↦ 0) 0 0).run
  [.launch (some (onePage 5)) ⟨[47, 97], [], []⟩, .mmap 0 8192 3 0x22 .negative 0,
    .store 0x10000fff 5, .fork true true]

/-- A store across the boundary of the two pages stays with the parent. -/
theorem user_copies_forked :
    forkedPages.vmm.cowPages 4096 0x10000fff 2 = 2 ∧ forkedPages.vmm.vmmUserRangeOk 0x10000fff 2
      true = true ∧ (forkedPages.vmm.userCopyToCr3 4096 0x10000fff [7, 9]).2 = 0 ∧
      (forkedPages.vmm.userCopyToCr3 4096 0x10000fff [7, 9]).1.userCopyFromCr3 4096 0x10000fff 2 =
        some [7, 9] ∧
      (forkedPages.vmm.userCopyToCr3 4096 0x10000fff [7, 9]).1.userByte 4171 0x10000fff =
        some 5 := by
  -- one evaluation of the run for all that is read off its end
  obtain ⟨huses, hrange, hcow, hbyte, hhhdm, hlow, huser, hfree⟩ :
      (∀ q ∈ forkedPages.vmm.uses, q.2 = .sole ∨
        (q.1 * pageSize < pmmTrackLimit → forkedPages.vmm.pmm.reservedState q.1 = true) →
          forkedPages.vmm.useCount q.1 = 1) ∧
      forkedPages.vmm.vmmUserRangeOk 0x10000fff 2 true = true ∧
        forkedPages.vmm.cowPages 4096 0x10000fff 2 = 2 ∧
      forkedPages.vmm.userByte 4171 0x10000fff = some 5 ∧
        forkedPages.vmm.pmm.hhdm = 0xFFFF800000000000 ∧
      (∀ q ∈ forkedPages.vmm.uses, q.1 * pageSize < pmmTrackLimit) ∧
        forkedPages.vmm.user = some 4096 ∧
      forkedPages.vmm.cowPages 4096 0x10000fff 2 ≤ forkedPages.vmm.pmm.freePages := by decide +kernel
  have hun : forkedPages.vmm.Unaliased 4096 := Vmm.unaliased_of_uses huses
  have hreach : forkedPages.vmm.Reached 4096 0x10000fff 2 := Vmm.reached_of_uses hhhdm hlow
  obtain ⟨hcopy, hcheck⟩ :=
    user_copies (clearFrames 128) (clearFrames_ok (by decide)) (fun _ _ ↦ 0) 0 0 (fbReserved_none _)
    [.launch (some (onePage 5)) ⟨[47, 97], [], []⟩, .mmap 0 8192 3 0x22 .negative 0,
      .store 0x10000fff 5, .fork true true]
    4096 0x10000fff [7, 9]
  unfold forkedPages at hun hrange hcow hbyte hreach huser hfree ⊢
  have hrc := (hcheck huser (by decide)).2 hrange hreach hfree
  generalize hr : Vmm.userCopyToCr3 _ 4096 0x10000fff [7, 9] = r at hrc hcopy ⊢
  obtain ⟨s', rc⟩ := r
  have hzero : rc = 0 := hrc
  subst hzero
  obtain ⟨hread, hother, -⟩ := hcopy hun s' rfl
  exact ⟨hcow, hrange, hrc, hread, (hother 4171 0x10000fff (.inl (by decide))).trans hbyte⟩

/-- A framebuffer that `pmm_phys_to_virt` does not reach, mapped to user space. -/
def farFramebuffer : Mm := (boot (clearFrames 128) (fun _ _ ↦ 0) (2 ^ 47) 4096).run
  [.launch (some (onePage 5)) ⟨[47, 97], [], []⟩, .mmap 0 4096 3 1 .framebuffer 0]

/-- The check refuses the empty range, to which a copy succeeds, and it accepts pages that the copy
cannot reach. -/
theorem range_check_differs :
    let s := farFramebuffer.vmm
    s.Unaliased 4096 ∧ s.user = some 4096 ∧
      ((∀ x, 0x10000000 ≤ x → x < 0x10000000 + 0 → s.Writable 4096 x) ∧
        s.vmmUserRangeOk 0x10000000 0 true = false ∧
        (s.userCopyToCr3 4096 0x10000000 []).2 = 0) ∧
      (s.vmmUserRangeOk 0x10000000 1 true = true ∧ s.cowPages 4096 0x10000000 1 = 0 ∧
        (s.userCopyToCr3 4096 0x10000000 [7]).2 = -efault) := by
  obtain ⟨huses, huser, hempty, hnone, hrange, hcow, hfault⟩ :
      (∀ q ∈ farFramebuffer.vmm.uses, q.2 = .sole ∨
        (q.1 * pageSize < pmmTrackLimit → farFramebuffer.vmm.pmm.reservedState q.1 = true) →
          farFramebuffer.vmm.useCount q.1 = 1) ∧
      farFramebuffer.vmm.user = some 4096 ∧
        farFramebuffer.vmm.vmmUserRangeOk 0x10000000 0 true = false ∧
      (farFramebuffer.vmm.userCopyToCr3 4096 0x10000000 []).2 = 0 ∧
        farFramebuffer.vmm.vmmUserRangeOk 0x10000000 1 true = true ∧
      farFramebuffer.vmm.cowPages 4096 0x10000000 1 = 0 ∧
      (farFramebuffer.vmm.userCopyToCr3 4096 0x10000000 [7]).2 = -efault := by decide +kernel
  exact ⟨Vmm.unaliased_of_uses huses, huser, ⟨fun x h₁ h₂ ↦ absurd h₂ (by omega), hempty, hnone⟩,
    hrange, hcow, hfault⟩

end Mm

end YabroOS.Memory
