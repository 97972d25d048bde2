import YabroOS.Memory.Window

namespace YabroOS.Memory

open Lib Function

namespace Pmm

variable {p p' p'' : Pmm} {f : ℕ}

def Grows (p p' : Pmm) : Prop :=
  ∀ f, p.pageIsAllocated (f * pageSize) = true → p'.pageIsAllocated (f * pageSize) = true

theorem Grows.refl (p : Pmm) : p.Grows p := fun _ h ↦ h

theorem Grows.trans (h : p.Grows p') (h' : p'.Grows p'') : p.Grows p'' := fun f hf ↦ h' f (h f hf)

theorem isAllocated_congr (h : p'.pageState = p.pageState) (a : ℕ) :
    p'.pageIsAllocated a = p.pageIsAllocated a := by
  unfold pageIsAllocated
  rw [h]

theorem isAllocated_update {g : ℕ} {b : Bool} (h : p'.pageState = update p.pageState g b)
    (hfg : f ≠ g) : p'.pageIsAllocated (f * pageSize) = p.pageIsAllocated (f * pageSize) := by
  unfold pageIsAllocated
  rw [h, mul_div_pageSize, update_of_ne hfg]

theorem alloc_fresh (h : p.pmmAllocPage = (p', some f)) :
    p.pageIsAllocated (f * pageSize) = false ∧ p'.pageIsAllocated (f * pageSize) = true ∧
      p.Grows p' := by
  obtain ⟨hav, -, -, -, hst, -⟩ := pmmAllocPage_some h
  simp only [available, decide_eq_true_eq] at hav
  obtain ⟨hlt, -, -, hfree⟩ := hav
  have hnew : p'.pageIsAllocated (f * pageSize) = true := by
    simp [pageIsAllocated, tracked, hlt, hst, mul_div_pageSize]
  refine ⟨hfree, hnew, fun g hg ↦ ?_⟩
  by_cases hgf : g = f
  · subst hgf
    exact hnew
  · rw [isAllocated_update hst hgf]
    exact hg

theorem Grows.alloc {o : Option ℕ} (h : p.pmmAllocPage = (p', o)) : p.Grows p' := by
  cases o with
  | none =>
    intro f hf
    rw [isAllocated_congr (pmmAllocPage_none h).2.2.2.1]
    exact hf
  | some f => exact (alloc_fresh h).2.2

theorem free_isAllocated {g : ℕ} (hfg : f ≠ g) :
    (p.pmmFreePage (g * pageSize)).pageIsAllocated (f * pageSize) =
      p.pageIsAllocated (f * pageSize) := by
  simp only [pmmFreePage, pageOf_mul, mul_div_pageSize]
  split_ifs
  · rfl
  · rfl
  · rfl
  · rfl
  · rfl
  · exact isAllocated_update (p := p) rfl hfg

theorem Grows.allocTable {o : Option ℕ} (h : p.allocTable = (p', o)) : p.Grows p' := by
  simp only [Pmm.allocTable] at h
  split at h
  · next q hq =>
    cases h
    exact .alloc hq
  · next q f hq =>
    obtain ⟨hfree, -, hgrows⟩ := alloc_fresh hq
    split_ifs at h
    · cases h
      exact hgrows
    · cases h
      intro g hg
      have hgf : g ≠ f := by
        rintro rfl
        rw [hfree] at hg
        cases hg
      rw [free_isAllocated hgf]
      exact hgrows g hg

theorem Grows.ensureUserChild {n : ℕ} (e : Option (Entry (Tab n))) :
    p.Grows (Tab.ensureUserChild p n e).1 := by
  have hnew : p.Grows (Tab.newUserTable p n).1 := by
    simp only [Tab.newUserTable]
    split
    · next q hq => exact .allocTable hq
    · next q f hq => exact .allocTable hq
  unfold Tab.ensureUserChild
  split
  · split_ifs
    · exact .refl p
    · exact .refl p
    · exact hnew
  · exact hnew

theorem Grows.mapLeaf {n : ℕ} (t : Tab n) (virt : ℕ) (e : Pte) :
    p.Grows (Tab.mapLeaf n p t virt e).1 := by
  induction n generalizing p with
  | zero => exact .refl p
  | succ n ih =>
    have hchild := Grows.ensureUserChild (p := p) (Slots.get? t (idx (n + 1) virt))
    simp only [Tab.mapLeaf]
    split
    · next q hq =>
      rw [hq] at hchild
      exact hchild
    · next q fl f c hq =>
      rw [hq] at hchild
      exact hchild.trans (ih c)

end Pmm

namespace Vmm

variable {s s' : Vmm} {root : ℕ}

theorem grows_userMap (s : Vmm) (virt frame : ℕ) (flags : PteFlags) :
    s.pmm.Grows (s.vmmUserMap virt frame flags).1.pmm := by
  simp only [vmmUserMap]
  split
  · exact .refl _
  split
  · exact .refl _
  split
  · exact .refl _
  · exact .mapLeaf _ _ _

/-- Pages that the loader has just mapped: each has a frame of its own, which is handed out. -/
structure Fresh (root : ℕ) (l : List ℕ) (s : Vmm) : Prop where
  user : s.user = some root
  page : ∀ va ∈ l, ∃ e, s.vmmUserTranslateCr3 root va = some e ∧ (e.u && e.w) = true ∧
    s.pmm.physToVirtOk (e.frame * pageSize) = true ∧
      s.pmm.pageIsAllocated (e.frame * pageSize) = true
  apart : ∀ va ∈ l, ∀ va' ∈ l, ∀ e e', s.vmmUserTranslateCr3 root va = some e →
    s.vmmUserTranslateCr3 root va' = some e' → e.frame = e'.frame → va = va'

theorem Fresh.stackPage {l : List ℕ} {va : ℕ} (h : Fresh root l s)
    (hl : ∀ va' ∈ l, Pmm.pageOf va' ≠ Pmm.pageOf va) (hs : Vmm.stackPage s va = (s', 0)) :
    Fresh root (va :: l) s' := by
  simp only [Vmm.stackPage] at hs
  split at hs
  · cases hs
  next pmm frame ha =>
  obtain ⟨hfree, hnew, hgrows⟩ := Pmm.alloc_fresh ha
  have hhdm := (Pmm.pmmAllocPage_some ha).2.1
  have hother : ∀ va', Pmm.pageOf va' ≠ Pmm.pageOf va →
      ({ s with pmm := pmm }.vmmUserMap va frame heapFlags).1.vmmUserTranslateCr3 root va' =
        s.vmmUserTranslateCr3 root va' :=
    fun va' hne ↦
      (translate_userMap_of_ne _ frame heapFlags (fun _ ↦ hne)).trans (translate_congr rfl hhdm)
  have hgrows' := hgrows.trans (grows_userMap { s with pmm := pmm } va frame heapFlags)
  obtain ⟨-, -, huser, hhdm', -⟩ := userMap_frame { s with pmm := pmm } va frame heapFlags
  cases hm : { s with pmm := pmm }.vmmUserMap va frame heapFlags with
  | mk s₁ rc =>
  have hstays := grows_userMap { s with pmm := pmm } va frame heapFlags frame hnew
  rw [hm] at hs hother hgrows' huser hhdm' hstays
  dsimp only at hs hother hgrows' huser hhdm' hstays
  by_cases hrc : rc = 0
  swap
  · rw [if_pos hrc] at hs
    cases hs
  subst hrc
  rw [if_neg (by simp)] at hs
  split_ifs at hs with hphys
  · cases hs
    have htr := translate_userMap hm
    have huser' : s₁.user = some root := huser.trans h.user
    rw [vmmUserTranslate, huser'] at htr
    have hold : ∀ va' ∈ l, ∀ e, s₁.vmmUserTranslateCr3 root va' = some e →
        s.vmmUserTranslateCr3 root va' = some e ∧ e.frame ≠ frame := by
      intro va' hva' e he
      rw [hother va' (hl va' hva')] at he
      refine ⟨he, ?_⟩
      rintro rfl
      obtain ⟨e', he', -, -, halloc⟩ := h.page va' hva'
      rw [he] at he'
      cases he'
      rw [hfree] at halloc
      cases halloc
    refine ⟨huser', fun va' hva' ↦ ?_, fun va₁ h₁ va₂ h₂ e₁ e₂ he₁ he₂ hf ↦ ?_⟩
    · obtain rfl | hva' := List.mem_cons.1 hva'
      · exact ⟨_, htr, rfl, hphys, hstays⟩
      · obtain ⟨e, he, hok, hp, halloc⟩ := h.page va' hva'
        refine ⟨e, (hother va' (hl va' hva')).trans he, hok, ?_, hgrows' _ halloc⟩
        rw [Pmm.physToVirtOk_congr (hhdm'.trans hhdm)]
        exact hp
    · have htr : s₁.vmmUserTranslateCr3 root va = some (userPte frame heapFlags) := htr
      have he₁ : s₁.vmmUserTranslateCr3 root va₁ = some e₁ := he₁
      have he₂ : s₁.vmmUserTranslateCr3 root va₂ = some e₂ := he₂
      obtain rfl | hm₁ := List.mem_cons.1 h₁
      · obtain rfl | hm₂ := List.mem_cons.1 h₂
        · rfl
        · rw [htr] at he₁
          cases he₁
          exact absurd hf.symm (hold va₂ hm₂ e₂ he₂).2
      · obtain rfl | hm₂ := List.mem_cons.1 h₂
        · rw [htr] at he₂
          cases he₂
          exact absurd hf (hold va₁ hm₁ e₁ he₁).2
        · exact h.apart va₁ hm₁ va₂ hm₂ e₁ e₂ (hold va₁ hm₁ e₁ he₁).1 (hold va₂ hm₂ e₂ he₂).1 hf
  · cases hs

theorem Fresh.eachPage {l l' : List ℕ} {done : ℕ} (h : Fresh root l s)
    (hl : ∀ va ∈ l', ∀ va' ∈ l, Pmm.pageOf va' ≠ Pmm.pageOf va)
    (hl' : l'.Pairwise (fun a b ↦ Pmm.pageOf a ≠ Pmm.pageOf b))
    (hs : Vmm.eachPage Vmm.stackPage l' s = (s', done, 0)) : Fresh root (l'.reverse ++ l) s' := by
  induction l' generalizing s l done with
  | nil =>
    cases hs
    exact h
  | cons va l' ih =>
    obtain ⟨hva, hl'⟩ := List.pairwise_cons.1 hl'
    simp only [Vmm.eachPage] at hs
    cases hp : Vmm.stackPage s va with
    | mk s₁ rc =>
    rw [hp] at hs
    dsimp only at hs
    by_cases hrc : rc = 0
    swap
    · rw [if_pos hrc] at hs
      cases hs
      exact absurd rfl hrc
    subst hrc
    rw [if_neg (by simp)] at hs
    cases he : Vmm.eachPage Vmm.stackPage l' s₁ with
    | mk s₂ q =>
    obtain ⟨n, rc⟩ := q
    rw [he] at hs
    cases hs
    rw [List.reverse_cons, List.append_assoc]
    refine ih (h.stackPage (hl va (.head _)) hp) (fun a ha b hb ↦ ?_) hl' he
    obtain rfl | hb := List.mem_cons.1 hb
    · exact hva a ha
    · exact hl a (.tail _ ha) b hb

def userStackBase : ℕ := userStackTop - userStackSize

theorem pageOf_stack {k : ℕ} :
    Pmm.pageOf (userStackBase + k * pageSize) = userStackBase + k * pageSize := by
  simp only [Pmm.pageOf, userStackBase, userStackTop, userStackSize, pageSize]
  omega

theorem mapUserStack_window (h : s.mapUserStack = (s', 0)) :
    ∃ root, Window (fun e ↦ e.u && e.w) root userStackBase userStackTop s' := by
  simp only [mapUserStack] at h
  cases he : Vmm.eachPage Vmm.stackPage (pages userStackBase userStackSize) s with
  | mk s₁ q =>
  obtain ⟨done, rc⟩ := q
  rw [show userStackTop - userStackSize = userStackBase from rfl, he] at h
  cases h
  obtain ⟨root, hroot⟩ : ∃ root, s.user = some root := by
    cases hu : s.user with
    | some root => exact ⟨root, rfl⟩
    | none =>
      -- the first page of the loop cannot be mapped
      exfalso
      have hpages : pages userStackBase userStackSize = userStackBase ::
          (pages userStackBase userStackSize).tail := by
        decide +kernel
      rw [hpages] at he
      simp only [Vmm.eachPage] at he
      have hfail : (Vmm.stackPage s userStackBase).2 ≠ 0 := by
        simp only [Vmm.stackPage]
        split
        · exact (by decide : (-1 : ℤ) ≠ 0)
        · simp [vmmUserMap, hu]
      cases hp : Vmm.stackPage s userStackBase with
      | mk s₂ rc =>
      rw [hp] at he hfail
      simp only [ne_eq, hfail, not_false_eq_true, if_true] at he
      cases he
      exact hfail rfl
  have hdistinct : (pages userStackBase userStackSize).Pairwise
      (fun a b ↦ Pmm.pageOf a ≠ Pmm.pageOf b) := by
    rw [pages, List.pairwise_map]
    refine List.pairwise_lt_range.imp (fun {i j} hij ↦ ?_)
    rw [pageOf_stack, pageOf_stack]
    simp only [pageSize]
    omega
  have hempty : s.Fresh root [] :=
    ⟨hroot, fun _ h ↦ absurd h List.not_mem_nil, fun _ h ↦ absurd h List.not_mem_nil⟩
  have hfresh := hempty.eachPage (fun _ _ _ hb ↦ absurd hb List.not_mem_nil) hdistinct he
  rw [List.append_nil] at hfresh
  have hmem : ∀ va, userStackBase ≤ va → va < userStackTop →
      Pmm.pageOf va ∈ (pages userStackBase userStackSize).reverse := by
    intro va hlo hhi
    rw [List.mem_reverse, mem_pages]
    refine ⟨(va - userStackBase) / pageSize, ?_, ?_⟩ <;>
      simp only [Pmm.pageOf, userStackBase, userStackTop, userStackSize, pageSize] at hlo hhi ⊢
        <;> omega
  refine ⟨root, hfresh.user, fun va hlo hhi ↦ ?_, fun va va' e e' hlo hhi hlo' hhi' htr htr' hf ↦ ?_⟩
  · obtain ⟨e, htr, hok, hphys, -⟩ := hfresh.page _ (hmem va hlo hhi)
    rw [translate_pageOf] at htr
    exact ⟨e, htr, hok, hphys⟩
  · rw [← translate_pageOf] at htr htr'
    exact hfresh.apart _ (hmem va hlo hhi) _ (hmem va' hlo' hhi') e e' htr htr' hf

theorem placeStrings_spec {strs : List (List UInt8)} {cursor low : ℕ}
    {placed : List (ℕ × List UInt8)} (hlen : ∀ str ∈ strs, str.length ≤ 255)
    (hroom : 272 * strs.length ≤ cursor) (h : placeStrings strs cursor = (placed, low)) :
    placed.map Prod.snd = strs.map (· ++ [0]) ∧ placed.Pairwise Separate ∧
      (∀ o ∈ placed, low ≤ o.1 ∧ o.1 + o.2.length ≤ cursor) ∧ low ≤ cursor ∧
        cursor ≤ low + 272 * strs.length := by
  induction strs generalizing cursor placed with
  | nil =>
    cases h
    exact ⟨rfl, .nil, nofun, le_rfl, by simp⟩
  | cons str strs ih =>
    have hstr := hlen str (.head _)
    rw [List.length_cons] at hroom
    simp only [placeStrings] at h
    cases hp : placeStrings strs ((cursor - (str.length + 1)) / 16 * 16) with
    | mk rest low' =>
    rw [hp] at h
    cases h
    obtain ⟨hmap, hsep, hin, hle, hge⟩ := ih (fun t ht ↦ hlen t (.tail _ ht)) (by omega) hp
    have hself : (cursor - (str.length + 1)) / 16 * 16 + (str ++ [(0 : UInt8)]).length ≤ cursor := by
      rw [List.length_append, List.length_singleton]
      omega
    refine ⟨by rw [List.map_cons, List.map_cons, hmap],
      List.pairwise_cons.2 ⟨fun o ho ↦ .inr (hin o ho).2, hsep⟩,
      fun o ho ↦ ?_, by omega, by rw [List.length_cons]; omega⟩
    obtain rfl | ho := List.mem_cons.1 ho
    · exact ⟨hle, hself⟩
    · have ho' := hin o ho
      exact ⟨ho'.1, by omega⟩

theorem length_auxv_le (img : ElfImage) (bias entry interp : ℕ) :
    (auxv img bias entry interp).length ≤ 18 := by
  unfold auxv
  split_ifs <;> simp

theorem Window.rangeOk {lo hi sp n : ℕ} (hw : Window (fun e ↦ e.u && e.w) root lo hi s) (hn : 0 < n)
    (hlo : lo ≤ sp) (hhi : sp + n ≤ hi) (htop : hi ≤ userTop) (hpage : lo % pageSize = 0) :
    s.vmmUserRangeOk sp n true = true := by
  have hcan : canonicalUser sp = true := by
    rw [canonicalUser, decide_eq_true_eq]
    omega
  have hnone : s.user ≠ none := by
    rw [hw.user]
    exact Option.some_ne_none root
  rw [vmmUserRangeOk, if_neg (by
    rw [hcan]
    simp only [hnone, Bool.true_eq_false, false_or]
    omega), List.all_eq_true]
  intro i hi'
  rw [List.mem_range] at hi'
  obtain ⟨e, he, hok, -⟩ :=
    hw.page ((sp / pageSize + i) * pageSize) (by simp only [pageSize] at *; omega)
    (by simp only [pageSize] at *; omega)
  simp only [Bool.and_eq_true] at hok
  simp only [vmmUserTranslate, hw.user, he, hok.1, hok.2, Bool.not_true, Bool.false_or,
    Bool.true_or, Bool.and_self]

/-- The arguments of the new program: without any, its own name. -/
def ExecArgs.args (a : ExecArgs) : List (List UInt8) := if a.argv = [] then [a.execfn] else a.argv

def stackVector (argv envp aux : List ℕ) : List ℕ :=
  argv.length :: argv ++ [0] ++ envp ++ [0] ++ aux

def stackObjects (sp : ℕ) (argv envp aux : List ℕ) (a : ExecArgs) : List (ℕ × List UInt8) :=
  (sp, (stackVector argv envp aux).flatMap le64) :: (execfnVa, a.execfn ++ [0]) ::
    (randomVa, randomBytes) ::
    (argv.zip (a.args.map (· ++ [0])) ++ envp.zip (a.envp.map (· ++ [0])))

theorem zip_fst_snd {α β : Type} (l : List (α × β)) :
    (l.map Prod.fst).zip (l.map Prod.snd) = l := by
  induction l with
  | nil => rfl
  | cons q l ih => rw [List.map_cons, List.map_cons, List.zip_cons_cons, ih]

theorem length_flatMap_le64 (v : List ℕ) : (v.flatMap le64).length = 8 * v.length := by
  induction v with
  | nil => rfl
  | cons x v ih =>
    rw [List.flatMap_cons, List.length_append, ih, List.length_cons]
    simp only [le64, List.length_map, List.length_range]
    omega

theorem initUserStack_objects (hw : Window (fun e ↦ e.u && e.w) root userStackBase userStackTop s)
    {a : ExecArgs} (hexec : a.execfn.length ≤ 63) (hargc : a.argv.length ≤ 15)
    (henvc : a.envp.length ≤ 15) (hstr : ∀ str ∈ a.argv ++ a.envp, str.length ≤ 255)
    (img : ElfImage) (bias entry interp : ℕ) :
    ∃ s' sp argv envp, s.initUserStack img bias entry interp a = (s', some sp) ∧
      (∃ b, s' = { s with bytes := b }) ∧
      argv.length = a.args.length ∧ envp.length = a.envp.length ∧
      (stackObjects sp argv envp (auxv img bias entry interp) a).Pairwise Separate ∧
      ∀ o ∈ stackObjects sp argv envp (auxv img bias entry interp) a,
        userStackBase ≤ o.1 ∧ o.1 + o.2.length ≤ userStackTop ∧ s'.Holds root o.1 o.2 := by
  have hva : execfnVa = 0x7FFFFFFFEFC0 ∧ randomVa = 0x7FFFFFFFEFB0 ∧ userStackTop = 0x7FFFFFFFF000 ∧
      userStackBase = 0x7FFFFFFBF000 := ⟨rfl, rfl, rfl, rfl⟩
  have hargs : a.args.length ≤ 15 ∧ ∀ str ∈ a.args ++ a.envp, str.length ≤ 255 := by
    unfold ExecArgs.args
    split_ifs with hnil
    · refine ⟨by simp, fun str hs ↦ ?_⟩
      obtain rfl | hs := List.mem_cons.1 hs
      · omega
      · exact hstr str (List.mem_append_right _ hs)
    · exact ⟨hargc, hstr⟩
  -- the name and the random bytes
  obtain ⟨s₁, hs₁, ⟨b₁, rfl⟩, hholds₁⟩ := hw.copyAll
    (l := [(execfnVa, a.execfn ++ [0]), (randomVa, randomBytes)]) (by
      intro o ho
      simp only [List.append_nil, List.mem_cons, List.not_mem_nil, or_false] at ho
      obtain rfl | rfl := ho
      · simp only [List.length_append, List.length_singleton]
        omega
      · simp only [randomBytes, List.length_cons, List.length_nil]
        omega) (by
      refine List.pairwise_pair.2 (.inr ?_)
      simp only [randomBytes, List.length_cons, List.length_nil]
      omega) (show ∀ o ∈ ([] : List (ℕ × List UInt8)), Vmm.Holds _ _ o.1 o.2 from nofun)
  rw [List.append_nil] at hholds₁
  -- the strings below them
  cases hp : placeStrings (a.args ++ a.envp) randomVa with
  | mk placed cursor =>
  have hcount : (a.args ++ a.envp).length ≤ 30 := by
    rw [List.length_append]
    omega
  obtain ⟨hmap, hsep, hin, hle, hge⟩ := placeStrings_spec hargs.2 (by omega) hp
  have hbelow : ∀ o ∈ placed, ∀ o' ∈ [(execfnVa, a.execfn ++ [0]), (randomVa, randomBytes)],
      Separate o o' := by
    intro o ho o' ho'
    have hlt := (hin o ho).2
    simp only [List.mem_cons, List.not_mem_nil, or_false] at ho'
    obtain rfl | rfl := ho'
    · exact .inl (by simp only; omega)
    · exact .inl (by simp only; omega)
  have hsep₂ : (placed ++ [(execfnVa, a.execfn ++ [0]), (randomVa, randomBytes)]).Pairwise
      Separate := by
    refine List.pairwise_append.2 ⟨hsep, List.pairwise_pair.2 (.inr ?_), hbelow⟩
    simp only [randomBytes, List.length_cons, List.length_nil]
    omega
  have hin₂ : ∀ o ∈ placed ++ [(execfnVa, a.execfn ++ [0]), (randomVa, randomBytes)],
      userStackBase + 1024 ≤ o.1 ∧ o.1 + o.2.length ≤ userStackTop ∧ cursor ≤ o.1 := by
    intro o ho
    obtain ho | ho := List.mem_append.1 ho
    · have hpl := hin o ho
      omega
    · simp only [List.mem_cons, List.not_mem_nil, or_false] at ho
      obtain rfl | rfl := ho
      · simp only [List.length_append, List.length_singleton]
        omega
      · simp only [randomBytes, List.length_cons, List.length_nil]
        omega
  obtain ⟨s₂, hs₂, ⟨b₂, rfl⟩, hholds₂⟩ := (hw.bytes b₁).copyAll
    (fun o ho ↦ ⟨by have := hin₂ o ho; omega, (hin₂ o ho).2.1⟩) hsep₂ hholds₁
  -- the vector below the strings
  have hlenp : placed.length = a.args.length + a.envp.length := by
    have hlen := congrArg List.length hmap
    rwa [List.length_map, List.length_map, List.length_append] at hlen
  obtain ⟨argv, hargv⟩ : ∃ l, l = (placed.take a.args.length).map Prod.fst := ⟨_, rfl⟩
  obtain ⟨envp, henvp⟩ : ∃ l, l = (placed.drop a.args.length).map Prod.fst := ⟨_, rfl⟩
  have hlen₁ : argv.length = a.args.length := by
    rw [hargv, List.length_map, List.length_take, hlenp]
    omega
  have hlen₂ : envp.length = a.envp.length := by
    rw [henvp, List.length_map, List.length_drop, hlenp]
    omega
  have haux := length_auxv_le img bias entry interp
  have hlenv : (stackVector argv envp (auxv img bias entry interp)).length ≤ 51 := by
    simp only [stackVector, List.length_append, List.length_cons, List.length_nil]
    omega
  obtain ⟨v, hv⟩ : ∃ v, v = stackVector argv envp (auxv img bias entry interp) := ⟨_, rfl⟩
  rw [← hv] at hlenv
  have hlen8 := length_flatMap_le64 v
  have hpos : 0 < v.length := by
    rw [hv]
    simp [stackVector]
  obtain ⟨sp, hsp⟩ : ∃ sp, sp = (cursor - 16 - 8 * v.length - 8) / 16 * 16 + 8 := ⟨_, rfl⟩
  obtain ⟨s₃, hs₃, hst⟩ :=
    (hw.bytes b₂).storeLoop (show _ ≤ sp by omega) (show sp + (v.flatMap le64).length ≤ _ by omega)
      le_rfl
  have hs₃ : { s with bytes := b₂ }.copyToUser sp (v.flatMap le64) = (s₃, 0) := hs₃
  have hrange : s₃.vmmUserRangeOk sp (8 * v.length) true = true :=
    (hst.window (hw.bytes b₂)).rangeOk (by omega) (by omega) (by omega) (by decide) (by decide)
  have hobjects : stackObjects sp argv envp (auxv img bias entry interp) a =
      (sp, v.flatMap le64) :: (execfnVa, a.execfn ++ [0]) :: (randomVa, randomBytes) :: placed := by
    have h₁ : a.args.map (· ++ [0]) = (placed.take a.args.length).map Prod.snd := by
      rw [List.map_take, hmap, List.map_append, ← List.length_map (f := (· ++ [(0 : UInt8)])),
        List.take_left]
    have h₂ : a.envp.map (· ++ [0]) = (placed.drop a.args.length).map Prod.snd := by
      rw [List.map_drop, hmap, List.map_append, ← List.length_map (f := (· ++ [(0 : UInt8)])),
        List.drop_left]
    rw [stackObjects, h₁, h₂, hargv, henvp, zip_fst_snd, zip_fst_snd, List.take_append_drop, hv,
      hargv, henvp]
  have hperm : (placed ++ [(execfnVa, a.execfn ++ [0]), (randomVa, randomBytes)]).Perm
      ((execfnVa, a.execfn ++ [0]) :: (randomVa, randomBytes) :: placed) := List.perm_append_comm
  obtain ⟨b₃, rfl⟩ := hst.frame
  refine ⟨_, sp, argv, envp, ?_, ⟨b₃, rfl⟩, hlen₁, hlen₂, ?_, ?_⟩
  · have hnone : (a.args ++ a.envp).any (fun str ↦ decide (255 < str.length)) = false := by
      rw [List.any_eq_false]
      intro str hs
      have hshort := hargs.2 str hs
      simpa using hshort
    unfold initUserStack
    dsimp only
    rw [if_neg (by omega), hs₁]
    dsimp only
    rw [show (if a.argv = [] then [a.execfn] else a.argv) = a.args from rfl,
      if_neg (by simp [hnone]), hp]
    dsimp only
    rw [hs₂]
    dsimp only
    rw [← hargv, ← henvp, show a.args.length :: argv ++ [0] ++ envp ++ [0] ++
      auxv img bias entry interp = v by
      rw [hv, stackVector, hlen₁], ← hsp, if_neg (by omega), if_neg (by omega), hs₃]
    dsimp only
    rw [if_neg (by simp [hrange])]
  · rw [hobjects]
    refine List.pairwise_cons.2 ⟨fun o ho ↦ .inl ?_, hperm.pairwise hsep₂ (fun h ↦ h.symm)⟩
    have ho' := hin₂ o (hperm.mem_iff.2 ho)
    dsimp only
    omega
  · rw [hobjects]
    intro o ho
    obtain rfl | ho := List.mem_cons.1 ho
    · dsimp only
      exact ⟨by omega, by omega, hst.holds⟩
    · have ho' := hin₂ o (hperm.mem_iff.2 ho)
      refine ⟨by omega, ho'.2.1, ?_⟩
      exact hst.holds_of_separate (.inr (by dsimp only; omega)) (by omega) ho'.2.1
        (hholds₂ o (hperm.mem_iff.2 ho))

def ExecArgs.absPath (a : ExecArgs) : List UInt8 :=
  match a.path with
  | [] => []
  | c :: cs => if c ≠ 47 then 47 :: c :: cs else c :: cs

theorem ExecArgs.execfn_eq {a : ExecArgs} (hpath : a.path ≠ []) (hlen : a.absPath.length ≤ 63) :
    a.execfn = a.absPath := by
  unfold ExecArgs.execfn
  unfold ExecArgs.absPath at hlen ⊢
  cases hp : a.path with
  | nil => exact absurd hp hpath
  | cons c cs =>
    rw [hp] at hlen
    dsimp only at hlen ⊢
    split_ifs at hlen ⊢ with hc
    · exact List.take_of_length_le (by rw [List.singleton_append]; omega)
    · exact List.take_of_length_le (by rw [List.nil_append]; omega)

theorem auxv_pairs (img : ElfImage) (bias entry interp : ℕ) :
    ∃ pairs : List (ℕ × ℕ), auxv img bias entry interp = pairs.flatMap (fun q ↦ [q.1, q.2]) ++
      [0, 0] ∧ (∀ q ∈ pairs, q.1 ≠ 0) ∧ (25, randomVa) ∈ pairs ∧ (31, execfnVa) ∈ pairs := by
  refine ⟨(if phdrVa img bias ≠ 0 then [(3, phdrVa img bias)] else []) ++
    [(4, 56), (5, img.phdrs.length), (6, pageSize), (9, entry)] ++ (if interp ≠ 0 then [(7, interp)]
      else []) ++
    [(25, randomVa), (31, execfnVa)], ?_, ?_, by simp, by simp⟩
  · unfold auxv
    split_ifs <;> rfl
  · split_ifs <;> simp

/-- After `map_user_stack`, `init_user_stack` succeeds, and the stack decodes to what was placed
there: the number of arguments, the two vectors of pointers and the auxiliary vector; the strings
are intact, and all of this lies apart in the stack. -/
theorem initUserStack_decodes {a : ExecArgs} (h : s.mapUserStack = (s', 0)) (hpath : a.path ≠ [])
    (hlen : a.absPath.length ≤ 63) (hargc : a.argv.length ≤ 15) (henvc : a.envp.length ≤ 15)
    (hstr : ∀ str ∈ a.argv ++ a.envp, str.length ≤ 255) (img : ElfImage) (bias entry interp : ℕ) :
    ∃ root s'' sp argv envp, s'.user = some root ∧
      s'.initUserStack img bias entry interp a = (s'', some sp) ∧
      a.execfn = a.absPath ∧ argv.length = a.args.length ∧ envp.length = a.envp.length ∧
      (∀ k (hk : k < (stackVector argv envp (auxv img bias entry interp)).length),
        s''.userWord root
    (sp + 8 * k) = some ((stackVector argv envp (auxv img bias entry interp))[k] % 2 ^ 64)) ∧
      (∃ pairs : List (ℕ × ℕ), auxv img bias entry interp = pairs.flatMap (fun q ↦ [q.1, q.2]) ++
        [0, 0] ∧
        (∀ q ∈ pairs, q.1 ≠ 0) ∧ (25, randomVa) ∈ pairs ∧ (31, execfnVa) ∈ pairs) ∧
      (stackObjects sp argv envp (auxv img bias entry interp) a).Pairwise Separate ∧
      ∀ o ∈ stackObjects sp argv envp (auxv img bias entry interp) a,
        userStackBase ≤ o.1 ∧ o.1 + o.2.length ≤ userStackTop ∧ s''.Holds root o.1 o.2 := by
  have hexec := ExecArgs.execfn_eq hpath hlen
  obtain ⟨root, hw⟩ := mapUserStack_window h
  obtain ⟨s'', sp, argv, envp, hinit, -, hargv, henvp, hsep, hall⟩ :=
    initUserStack_objects hw (by rw [hexec]; exact hlen) hargc henvc hstr img bias entry interp
  refine ⟨root, s'', sp, argv, envp, hw.user, hinit, hexec, hargv, henvp, fun k hk ↦ ?_,
    auxv_pairs img bias entry interp,
    hsep, hall⟩
  exact userWord_vector (hall _ (.head _)).2.2 hk

def emptySpace : Vmm where
  pmm :=
    { regions := [⟨4096, 4196, 4097⟩]
      hhdm := 0xFFFF800000000000
      freePages := 99
      pageState := fun f ↦ decide (f = 4096)
      reservedState := fun _ ↦ false
      pageRefs := fun f ↦ if f = 4096 then 1 else 0
      ready := true }
  spaces := Slots.empty.set 4096 (Tab.empty 3)
  user := some 4096
  bytes := fun _ _ ↦ 0
  fbPhys := 0
  fbSize := 0
  upper := fun _ _ ↦ 0
  kernelCr3 := 0

def noImage : ElfImage := ⟨0, false, false, 0, 0, [], fun _ _ ↦ none⟩

theorem emptySpace_stack : emptySpace.mapUserStack = (emptySpace.mapUserStack.1, 0) := by
  have hrc : emptySpace.mapUserStack.2 = 0 := by decide +kernel
  generalize emptySpace.mapUserStack = q at hrc ⊢
  exact Prod.ext rfl hrc

theorem initUserStack_decodes_one :
    let s := emptySpace.mapUserStack.1
    let a : ExecArgs := ⟨[47, 97], [[47, 97], [98]], [[80, 61]]⟩
    emptySpace.mapUserStack = (s, 0) ∧
      ∃ root s' sp, s.initUserStack noImage 0 0x401000 0 a = (s', some sp) ∧
        s'.userWord root sp = some 2 ∧ s'.Holds root execfnVa [47, 97, 0] := by
  refine ⟨emptySpace_stack, ?_⟩
  obtain ⟨root, s', sp, argv, envp, -, hinit, -, hargv, -, hword, -, -, hall⟩ :=
    initUserStack_decodes
    (a := ⟨[47, 97], [[47, 97], [98]], [[80, 61]]⟩) emptySpace_stack (by decide) (by decide)
      (by decide) (by decide) (by decide)
    noImage 0 0x401000 0
  refine ⟨root, s', sp, hinit, ?_, (hall _ (.tail _ (.head _))).2.2⟩
  have hzero := hword 0 (by simp [stackVector])
  have hargc : argv.length = 2 := hargv
  rw [mul_zero, add_zero] at hzero
  rw [hzero]
  simp only [stackVector, List.cons_append, List.getElem_cons_zero, hargc]
  rfl

/-- A program that is started without arguments finds one, its own name. -/
theorem initUserStack_adds_name :
    let s := emptySpace.mapUserStack.1
    let a : ExecArgs := ⟨[47, 97], [], []⟩
    emptySpace.mapUserStack = (s, 0) ∧ a.argv.length = 0 ∧
      ∃ root s' sp, s.user = some root ∧ s.initUserStack noImage 0 0x401000 0 a = (s', some sp) ∧
        s'.userWord root sp = some 1 := by
  refine ⟨emptySpace_stack, rfl, ?_⟩
  obtain ⟨root, hw⟩ := mapUserStack_window emptySpace_stack
  obtain ⟨s', sp, argv, envp, hinit, -, hargv, -, -, hall⟩ :=
    initUserStack_objects (a := ⟨[47, 97], [], []⟩) hw
    (by decide) (by decide) (by decide) (by decide) noImage 0 0x401000 0
  refine ⟨root, s', sp, hw.user, hinit, ?_⟩
  have hzero := userWord_vector (hall _ (.head _)).2.2 (k := 0) (by simp [stackVector])
  have hargc : argv.length = 1 := hargv
  rw [mul_zero, add_zero] at hzero
  rw [hzero]
  simp only [stackVector, List.cons_append, List.getElem_cons_zero, hargc]
  rfl

end Vmm

end YabroOS.Memory
