import YabroOS.Memory.Frames

namespace YabroOS.Memory.Vmm

open Lib Function

variable {s s' s'' : Vmm} {root lo hi dst va : ℕ} {ok : Pte → Bool} {data data' : List UInt8}

/-- The addresses of a range of `g_user` are mapped to frames that the kernel reaches, with entries
that `ok` accepts, and no two pages share a frame. -/
structure Window (ok : Pte → Bool) (root lo hi : ℕ) (s : Vmm) : Prop where
  user : s.user = some root
  page : ∀ va, lo ≤ va → va < hi → ∃ e, s.vmmUserTranslateCr3 root va = some e ∧ ok e = true ∧
    s.pmm.physToVirtOk (e.frame * pageSize) = true
  apart : ∀ va va' e e', lo ≤ va → va < hi → lo ≤ va' → va' < hi →
    s.vmmUserTranslateCr3 root va = some e →
    s.vmmUserTranslateCr3 root va' = some e' → e.frame = e'.frame → Pmm.pageOf va = Pmm.pageOf va'

/-- The bytes at an address of an address space. -/
def Holds (s : Vmm) (root va : ℕ) (data : List UInt8) : Prop :=
  ∀ i (h : i < data.length), s.userByte root (va + i) = some data[i]

/-- From `s` to `s'` some bytes of a range have been stored, and nothing else of it has changed. -/
structure Stores (root lo hi : ℕ) (s : Vmm) (dst : ℕ) (data : List UInt8) (s' : Vmm) : Prop where
  frame : ∃ b, s' = { s with bytes := b }
  holds : s'.Holds root dst data
  other : ∀ va, lo ≤ va → va < hi → va < dst ∨ dst + data.length ≤ va →
    s'.userByte root va = s.userByte root va

theorem Window.bytes (h : Window ok root lo hi s) (b : ℕ → ℕ → UInt8) :
    Window ok root lo hi { s with bytes := b } :=
  ⟨h.user, h.page, h.apart⟩

theorem Stores.window (h : Stores root lo hi s dst data s') (hw : Window ok root lo hi s) :
    Window ok root lo hi s' := by
  obtain ⟨b, rfl⟩ := h.frame
  exact hw.bytes b

theorem Stores.nil (s : Vmm) (dst : ℕ) : Stores root lo hi s dst [] s where
  frame := ⟨s.bytes, rfl⟩
  holds := nofun
  other _ _ _ _ := rfl

theorem stores_putBytes (hw : Window ok root lo hi s) {e : Pte} (hlo : lo ≤ dst)
    (hhi : dst + data.length ≤ hi) (hpage : dst % pageSize + data.length ≤ pageSize)
    (hne : data ≠ []) (he : s.vmmUserTranslateCr3 root dst = some e) :
    Stores root lo hi s dst data (s.putBytes e.frame (dst % pageSize) data) := by
  have hpos : 0 < data.length := List.length_pos_iff.2 hne
  refine ⟨⟨_, rfl⟩, fun i hi' ↦ ?_, fun va hva hva' hout ↦ ?_⟩
  · have hsame : Pmm.pageOf (dst + i) = Pmm.pageOf dst := by
      simp only [Pmm.pageOf, pageSize] at hpage ⊢
      omega
    have hoff : (dst + i) % pageSize = dst % pageSize + i := by
      simp only [pageSize] at hpage ⊢
      omega
    have he' : s.vmmUserTranslateCr3 root (dst + i) = some e := by
      rw [← translate_pageOf, hsame, translate_pageOf, he]
    rw [putBytes_reads he' hi' hoff, List.getElem?_eq_getElem hi']
  · refine putBytes_userByte (fun e' he' hf ↦ ?_)
    have hsame := hw.apart va dst e' e hva hva' hlo (by omega) he' he hf
    simp only [Pmm.pageOf, pageSize] at hsame hpage ⊢
    omega

theorem Stores.append (h : Stores root lo hi s dst data s')
    (h' : Stores root lo hi s' (dst + data.length) data' s'') (hlo : lo ≤ dst)
    (hhi : dst + data.length ≤ hi) : Stores root lo hi s dst (data ++ data') s'' := by
  obtain ⟨b, rfl⟩ := h.frame
  obtain ⟨b', rfl⟩ := h'.frame
  refine ⟨⟨b', rfl⟩, fun i hi' ↦ ?_, fun va hva hva' hout ↦ ?_⟩
  · rw [List.length_append] at hi'
    by_cases hlt : i < data.length
    · rw [h'.other (dst + i) (by omega) (by omega) (.inl (by omega)), h.holds i hlt,
        List.getElem_append_left hlt]
    · have hget := h'.holds (i - data.length) (by omega)
      rw [show dst + data.length + (i - data.length) = dst + i by omega] at hget
      rw [hget, List.getElem_append_right (by omega)]
  · rw [List.length_append] at hout
    rw [h'.other va hva hva' (by omega), h.other va hva hva' (by omega)]

theorem Window.storeLoop (hw : Window ok root lo hi s) {fuel : ℕ} (hlo : lo ≤ dst)
    (hhi : dst + data.length ≤ hi) (hfuel : data.length ≤ fuel) :
    ∃ s', Vmm.storeLoop ok fuel s dst data = (s', 0) ∧ Stores root lo hi s dst data s' := by
  induction fuel generalizing s dst data with
  | zero =>
    obtain rfl : data = [] := List.eq_nil_of_length_eq_zero (by omega)
    exact ⟨s, rfl, .nil s dst⟩
  | succ fuel ih =>
    by_cases hne : data = []
    · subst hne
      exact ⟨s, rfl, .nil s dst⟩
    have hpos : 0 < data.length := List.length_pos_iff.2 hne
    have hpage : dst % pageSize < pageSize := Nat.mod_lt _ (by decide)
    obtain ⟨e, he, hok, hphys⟩ := hw.page dst hlo (by omega)
    have htr : s.vmmUserTranslate (Pmm.pageOf dst) = some e := by
      rw [vmmUserTranslate, hw.user]
      dsimp only
      rw [translate_pageOf, he]
    have hlen : (data.take (pageSize - dst % pageSize)).length =
        min (pageSize - dst % pageSize) data.length :=
      List.length_take
    have hstore := stores_putBytes hw hlo
      (show dst + (data.take (pageSize - dst % pageSize)).length ≤ hi by omega) (by omega)
      (List.ne_nil_of_length_pos (by omega)) he
    simp only [Vmm.storeLoop, if_neg hne, htr, hok, hphys, and_self, if_true]
    by_cases hlast : data.length ≤ pageSize - dst % pageSize
    · have hrest : data.drop (pageSize - dst % pageSize) = [] := List.drop_eq_nil_of_le hlast
      rw [List.take_of_length_le hlast] at hstore ⊢
      rw [hrest]
      refine ⟨_, ?_, hstore⟩
      cases fuel <;> rfl
    · have hlen' : (data.take (pageSize - dst % pageSize)).length =
          pageSize - dst % pageSize := by omega
      obtain ⟨s', hs', hst⟩ := ih (hstore.window hw)
        (show lo ≤ dst + (pageSize - dst % pageSize) by omega)
        (show dst + (pageSize - dst % pageSize) + (data.drop (pageSize - dst % pageSize)).length ≤
          hi by
          rw [List.length_drop]
          omega)
        (by rw [List.length_drop]; omega)
      refine ⟨s', hs', ?_⟩
      have hall := hstore.append (by rw [hlen']; exact hst) hlo (by omega)
      rwa [List.take_append_drop] at hall

/-- Two objects in memory that have no byte in common. -/
def Separate (o o' : ℕ × List UInt8) : Prop := o.1 + o.2.length ≤ o'.1 ∨ o'.1 + o'.2.length ≤ o.1

theorem Separate.symm {o o' : ℕ × List UInt8} (h : Separate o o') : Separate o' o := Or.symm h

theorem Stores.holds_of_separate (h : Stores root lo hi s dst data s')
    (hd : Separate (va, data') (dst, data)) (hlo : lo ≤ va) (hhi : va + data'.length ≤ hi)
    (hh : s.Holds root va data') : s'.Holds root va data' := by
  intro i hi'
  have hd : va + data'.length ≤ dst ∨ dst + data.length ≤ va := hd
  rw [h.other (va + i) (by omega) (by omega) (by omega), hh i hi']

theorem Window.copyAll (hw : Window (fun e ↦ e.u && e.w) root lo hi s)
    {l kept : List (ℕ × List UInt8)} (hin : ∀ o ∈ l ++ kept, lo ≤ o.1 ∧ o.1 + o.2.length ≤ hi)
    (hd : (l ++ kept).Pairwise Separate) (hkept : ∀ o ∈ kept, s.Holds root o.1 o.2) :
    ∃ s', Vmm.copyAll l s = (s', 0) ∧ (∃ b, s' = { s with bytes := b }) ∧
      ∀ o ∈ l ++ kept, s'.Holds root o.1 o.2 := by
  induction l generalizing s kept with
  | nil => exact ⟨s, rfl, ⟨s.bytes, rfl⟩, hkept⟩
  | cons o l ih =>
    obtain ⟨dst, data⟩ := o
    have ho : lo ≤ dst ∧ dst + data.length ≤ hi := hin _ (.head _)
    obtain ⟨hapart, hd'⟩ := List.pairwise_cons.1 hd
    obtain ⟨s₁, hs₁, hst⟩ := hw.storeLoop ho.1 ho.2 le_rfl
    have hs₁ : s.copyToUser dst data = (s₁, 0) := hs₁
    have hperm : ((dst, data) :: (l ++ kept)).Perm (l ++ (dst, data) :: kept) :=
      List.perm_middle.symm
    obtain ⟨s', hs', hb', hall⟩ := ih (hst.window hw)
      (show ∀ o ∈ l ++ (dst, data) :: kept, lo ≤ o.1 ∧ o.1 + o.2.length ≤ hi from fun o ho ↦
        hin o (hperm.mem_iff.2 ho)) (hperm.pairwise hd (fun h ↦ h.symm)) (fun o ho ↦ by
        obtain rfl | ho := List.mem_cons.1 ho
        · exact hst.holds
        · have hin' := hin o (.tail _ (List.mem_append_right _ ho))
          exact hst.holds_of_separate (hapart o (List.mem_append_right _ ho)).symm hin'.1 hin'.2
            (hkept o ho))
    obtain ⟨b, rfl⟩ := hst.frame
    obtain ⟨b', rfl⟩ := hb'
    refine ⟨_, ?_, ⟨b', rfl⟩, fun o ho ↦ hall o (hperm.mem_iff.1 ho)⟩
    simp only [Vmm.copyAll, hs₁]
    rw [if_neg (by simp)]
    exact hs'

def userWord (s : Vmm) (root va : ℕ) : Option ℕ :=
  ((List.range 8).mapM (fun i ↦ s.userByte root (va + i))).map
    (fun bytes ↦ bytes.foldr (fun b n ↦ b.toNat + 256 * n) 0)

theorem userWord_of_holds {x : ℕ} (h : s.Holds root va (le64 x)) :
    s.userWord root va = some (x % 2 ^ 64) := by
  have hbyte : ∀ i, i < 8 → s.userByte root (va + i) = some (UInt8.ofNat (x / 256 ^ i)) := by
    intro i hi
    have hget := h i (by simpa [le64] using hi)
    simpa [le64] using hget
  have hlist : (List.range 8).mapM (fun i ↦ s.userByte root (va + i)) =
      some ((List.range 8).map (fun i ↦ UInt8.ofNat (x / 256 ^ i))) := by
    have hr : List.range 8 = [0, 1, 2, 3, 4, 5, 6, 7] := rfl
    rw [hr]
    simp only [List.mapM_cons, List.mapM_nil, hbyte 0 (by decide), hbyte 1 (by decide),
      hbyte 2 (by decide), hbyte 3 (by decide),
      hbyte 4 (by decide), hbyte 5 (by decide), hbyte 6 (by decide), hbyte 7 (by decide)]
    rfl
  rw [userWord, hlist, Option.map_some]
  have hsum : ((List.range 8).map (fun i ↦ UInt8.ofNat (x / 256 ^ i))).foldr
      (fun b n ↦ b.toNat + 256 * n) 0 = x % 2 ^ 64 := by
    simp only [List.range, List.range.loop, List.map_cons, List.map_nil, List.foldr_cons,
      List.foldr_nil, UInt8.toNat_ofNat']
    norm_num
    omega
  rw [hsum]

theorem Holds.mono {k : ℕ} (h : s.Holds root va data) (hk : data' <+: data.drop k) :
    s.Holds root (va + k) data' := by
  intro i hi
  have hlen := hk.length_le
  rw [List.length_drop] at hlen
  have hget := h (k + i) (by omega)
  rw [add_assoc, hget, hk.getElem hi, List.getElem_drop]

theorem userWord_vector {sp k : ℕ} {v : List ℕ} (h : s.Holds root sp (v.flatMap le64))
    (hk : k < v.length) : s.userWord root (sp + 8 * k) = some (v[k] % 2 ^ 64) := by
  refine userWord_of_holds (h.mono ?_)
  clear h
  induction v generalizing k with
  | nil => simp at hk
  | cons x v ih =>
    have hlen : (le64 x).length = 8 := by simp [le64]
    rw [List.flatMap_cons]
    cases k with
    | zero => exact List.prefix_append _ _
    | succ k =>
      have hdrop : (le64 x ++ v.flatMap le64).drop (8 * (k + 1)) =
          (v.flatMap le64).drop (8 * k) := by
        rw [List.drop_append, List.drop_eq_nil_of_le (by omega), hlen, List.nil_append]
        congr 1
      rw [hdrop]
      exact ih (by simpa using hk)

end YabroOS.Memory.Vmm
