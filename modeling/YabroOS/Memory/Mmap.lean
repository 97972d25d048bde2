import YabroOS.Memory.Space

namespace YabroOS.Memory

open Lib Function

/-- What the descriptor of `sys_mmap` stands for: `bad` is a slot that cannot be mapped, and a file
has a size and is read by `kernel_file_read_at`. -/
inductive MmapFd
  | negative
  | bad
  | framebuffer
  | file (size : ℕ) (read : ℕ → ℕ → Option (List UInt8))

def mapShared (flags : ℕ) : Bool := flags.testBit 0
def mapPrivate (flags : ℕ) : Bool := flags.testBit 1
def mapFixed (flags : ℕ) : Bool := flags.testBit 4
def mapAnon (flags : ℕ) : Bool := flags.testBit 5

def MmapFd.pageContent (fd : MmapFd) (anon : Bool) (off : ℕ) : Option (ℕ → UInt8) :=
  match anon, fd with
  | false, .file size read =>
    if size ≤ off then some (fun _ ↦ 0)
    else
      match read off (min pageSize (size - off)) with
      | none => none
      | some bytes =>
        if bytes.length = min pageSize (size - off) then some (fun o ↦ (bytes[o]?).getD 0) else none
  | _, _ => some (fun _ ↦ 0)

/-- The loop of `user_mmap_find_gap`. The probe never lies below the base, so that each round moves
on. -/
def userMmapFindGap (s : Vmm) (size heapEnd base : ℕ) : Option ℕ :=
  if userMmapRangeOk (max base userMmapMin) size then
    if userHeapBase < heapEnd ∧ max base userMmapMin < pageUp heapEnd ∧
      userHeapBase < max base userMmapMin + size then
      userMmapFindGap s size heapEnd (pageUp heapEnd)
    else if s.rangeFree (max base userMmapMin) size then some (max base userMmapMin)
    else if userTop - pageSize < s.probe (max base userMmapMin) size then none
    else if base < s.probe (max base userMmapMin) size + pageSize then
      userMmapFindGap s size heapEnd (s.probe (max base userMmapMin) size + pageSize)
    else none
  else none
termination_by userTop - base
decreasing_by
  · have hok : userMmapRangeOk (max base userMmapMin) size = true := by assumption
    simp only [userMmapRangeOk, decide_eq_true_eq] at hok
    omega
  · have hok : userMmapRangeOk (max base userMmapMin) size = true := by assumption
    simp only [userMmapRangeOk, decide_eq_true_eq] at hok
    omega

namespace Mm

variable (m : Mm)

def mmapFramebuffer (cursor addr len prot flags off : ℕ) : Mm × ℤ :=
  let maplen := pageUp len
  let remaining := if off < m.vmm.fbSize then m.vmm.fbPhys % pageSize + m.vmm.fbSize - off else 0
  if prot.testBit 2 ∨ (mapShared flags || mapPrivate flags) = false ∨ m.vmm.fbSize = 0 ∨
      m.vmm.fbSize ≤ off ∨ maplen = 0 ∨ pageUp remaining < maplen then (m, -einval)
  else
    let base := if addr ≠ 0 then pageUp addr else pageUp cursor
    if userMmapRangeOk base maplen = false then (m, -enomem)
    else
      match m.vmm.graphicsFbMap base off len with
      | (v, mr) =>
        let m := { m with vmm := v }
        if mr < 0 then (m, -eio)
        else (if cursor < base + maplen then m.taskSharedMmapCursorAdvance (base + maplen)
          else m, base)

def mmapReserve (cursor base size : ℕ) (fixed : Bool) : Mm × ℤ :=
  let m := if fixed then { m with vmm := m.vmm.unmapPages (pages base size) } else m
  match m.taskLazyMmapTransformShared base (base + size) .replace 0 with
  | (m, lrc) =>
    if lrc < 0 then (m, lrc)
    else (if cursor < base + size then m.taskSharedMmapCursorAdvance (base + size) else m, base)

def mmapPages (cursor base size prot : ℕ) (fixed : Bool) (content : ℕ → Option (ℕ → UInt8)) :
    Mm × ℤ :=
  match if fixed then m.taskLazyMmapTransformShared base (base + size) .remove 0 else (m, 0) with
  | (m, lrc) =>
    if lrc < 0 then (m, -enomem)
    else
      match m.vmm.mapPages (Vmm.mmapPage fixed content (Vmm.protToPte prot)) (pages base size) with
      | (v, rc) =>
        let m := { m with vmm := v }
        if rc ≠ 0 then (m, rc)
        else (if cursor < base + size then m.taskSharedMmapCursorAdvance (base + size) else m, base)

def mmapAt (cursor base size prot flags : ℕ) (fd : MmapFd) (off : ℕ) : Mm × ℤ :=
  if mapAnon flags ∧ prot = 0 then m.mmapReserve cursor base size (mapFixed flags)
  else
    m.mmapPages cursor base size prot (mapFixed flags)
      (fun va ↦ fd.pageContent (mapAnon flags) (off + (va - base)))

def mmapBase (cursor addr size : ℕ) (fixed : Bool) : Except ℤ ℕ :=
  if fixed then if userAnyMappingRangeOk addr size then .ok addr else .error (-einval)
  else
    match userMmapFindGap m.vmm size m.task.heapEnd (pageUp cursor) with
    | some base => .ok base
    | none => .error (-enomem)

def sysMmap (addr len prot flags : ℕ) (fd : MmapFd) (off : ℕ) : Mm × ℤ :=
  match m.activate with
  | none => (m, -efault)
  | some m =>
    match m.taskSharedMmapCursor with
    | (m, cursor) =>
      if len = 0 ∨ 2 ^ 30 < len then (m, -einval)
      else if off % pageSize ≠ 0 then (m, -einval)
      else if Vmm.userProtWx prot then (m, -eacces)
      else
        match mapAnon flags, fd with
        | false, .negative => (m, -ebadf)
        | false, .bad => (m, if mapFixed flags ∧ addr % pageSize ≠ 0 then -einval else -ebadf)
        | false, .framebuffer =>
          if mapFixed flags ∧ addr % pageSize ≠ 0 then (m, -einval)
          else m.mmapFramebuffer cursor addr len prot flags off
        | _, _ =>
          if mapFixed flags ∧ addr % pageSize ≠ 0 then (m, -einval)
          else if pageUp len = 0 ∨ userTop - userMmapMin < pageUp len then (m, -enomem)
          else
            match m.mmapBase cursor addr (pageUp len) (mapFixed flags) with
            | .error rc => (m, rc)
            | .ok base => m.mmapAt cursor base (pageUp len) prot flags fd off

def fbMapped (addr : ℕ) : Bool :=
  match m.vmm.vmmUserTranslate addr with
  | none => false
  | some e => m.vmm.fbSize ≠ 0 ∧ m.vmm.fbPhys / pageSize ≤ e.frame ∧
      e.frame * pageSize < Pmm.pageOf m.vmm.fbPhys + pageUp (m.vmm.fbSize + m.vmm.fbPhys % pageSize)

def sysMunmap (addr len fs gs : ℕ) : Mm × ℤ :=
  match m.activate with
  | none => (m, -efault)
  | some m =>
    let size := pageUp len
    if addr % pageSize ≠ 0 ∨ len = 0 then (m, -einval)
    else if fs ≠ 0 ∧ addr ≤ fs ∧ fs - addr < size ∨ gs ≠ 0 ∧ addr ≤ gs ∧ gs - addr < size then
      (m, -einval)
    else if size = 0 ∨ userAnyMappingRangeOk addr size = false then (m, -einval)
    else if m.fbMapped addr then
      match m.vmm.graphicsFbUnmap addr size with
      | (v, rc) => ({ m with vmm := v }, rc)
    else
      match m.taskLazyMmapTransformShared addr (addr + size) .remove 0 with
      | (m, lrc) =>
        if lrc < 0 then (m, -enomem)
        else ({ m with vmm := m.vmm.unmapPages (pages addr size) }, 0)

def sysMprotect (addr len prot : ℕ) : Mm × ℤ :=
  match m.activate with
  | none => (m, -efault)
  | some m =>
    let size := pageUp len
    if addr % pageSize ≠ 0 ∨ len = 0 then (m, -einval)
    else if Vmm.userProtWx prot then (m, -eacces)
    else if size = 0 ∨ userAnyMappingRangeOk addr size = false then (m, -einval)
    else
      match m.taskLazyMmapTransformShared addr (addr + size) .setProt prot with
      | (m, lrc) =>
        if lrc < 0 then (m, -enomem)
        else
          match Vmm.eachPage
            (Vmm.mprotectStep prot (fun va ↦ (taskLazyMmapProtection m.task va).isSome))
              (pages addr size) m.vmm with
          | (v, _, rc) => ({ m with vmm := v }, rc)

def sharedHeap : ℕ × ℕ :=
  let t := m.task
  let base := if t.heapBase ≠ 0 then t.heapBase else userHeapBase
  let old := if t.heapEnd ≠ 0 then t.heapEnd else base
  let r := ((List.finRange 64).filter m.shares).foldl (fun r i ↦
    (if (m.tasks i).heapBase ≠ 0 then (m.tasks i).heapBase else r.1, max r.2 (m.tasks i).heapEnd))
      (base, old)
  (r.1, max r.1 r.2)

def sysBrk (addr : ℕ) : Mm × ℤ :=
  match m.activate with
  | none => (m, -efault)
  | some m =>
    match m.sharedHeap with
    | (base, old) =>
      let m := m.taskSharedHeapSync base old
      if addr = 0 then (m, old)
      else if addr < base ∨ userHeapMax ≤ addr then (m, old)
      else if old < addr then
        if pageUp old < pageUp addr ∧
          userAnyMappingRangeOk (pageUp old) (pageUp addr - pageUp old) = false then (m, old)
        else
          match m.vmm.mapPages Vmm.brkPage (pages (pageUp old) (pageUp addr - pageUp old)) with
          | (v, rc) =>
            let m := { m with vmm := v }
            if rc ≠ 0 then (m, old) else (m.taskSharedHeapSync base addr, addr)
      else
        let m := { m with vmm := m.vmm.unmapPages (pages (pageUp addr) (pageUp old - pageUp addr)) }
        (m.taskSharedHeapSync base addr, addr)

def taskLazyPageFault (addr : ℕ) (write fetch : Bool) : Mm × Bool :=
  match m.activate with
  | none => (m, false)
  | some m =>
    match taskLazyMmapProtection m.task addr with
    | none => (m, false)
    | some prot =>
      if prot = 0 ∨ write ∧ prot.testBit 1 = false ∨ fetch ∧ prot.testBit 2 = false ∨
          write = false ∧ fetch = false ∧ prot.testBit 0 = false ∧ prot.testBit 1 = false then
            (m, false)
      else if (m.vmm.vmmUserTranslate (Pmm.pageOf addr)).isSome then (m, false)
      else
        match m.vmm.mapFresh (Pmm.pageOf addr) (fun _ ↦ 0) (Vmm.protToPte prot) with
        | (v, rc) => ({ m with vmm := v }, rc = 0)

def mremapPteToProt (e : Pte) : ℕ := 1 + (if e.w then 2 else 0) + (if e.nx then 0 else 4)

def mremapCopy (root src dst len : ℕ) : List ℕ → Vmm → Vmm × ℤ
  | [], s => (s, 0)
  | k :: l, s =>
    match s.userCopyFromCr3 root (src + k * 256) (min 256 (len - k * 256)) with
    | none => (s, -efault)
    | some data =>
      match s.userCopyToCr3 root (dst + k * 256) data with
      | (s, rc) => if rc ≠ 0 then (s, -efault) else mremapCopy root src dst len l s

def mremapMove (oldAddr oldSize newSize target prot fs gs : ℕ) : Mm × ℤ :=
  match mremapCopy m.task.cr3 oldAddr target (min oldSize newSize)
      (List.range ((min oldSize newSize + 255) / 256)) m.vmm with
  | (v, rc) =>
    let m := { m with vmm := v }
    if rc ≠ 0 then ((m.sysMunmap target (pageUp newSize) fs gs).1, -efault)
    else
      match if Vmm.userProtWx prot then (m, (0 : ℤ))
        else m.sysMprotect target (pageUp newSize) prot with
      | (m, rc) =>
        if rc < 0 then ((m.sysMunmap target (pageUp newSize) fs gs).1, -efault)
        else
          match m.sysMunmap oldAddr (pageUp oldSize) fs gs with
          | (m, rc) =>
            if rc < 0 then ((m.sysMunmap target (pageUp newSize) fs gs).1, -efault) else (m, target)

def sysMremap (oldAddr oldSize newSize flags newAddr fs gs : ℕ) : Mm × ℤ :=
  match m.activate with
  | none => (m, -efault)
  | some m =>
    let old := pageUp oldSize
    let new := pageUp newSize
    if oldSize = 0 ∨ newSize = 0 ∨ oldAddr % pageSize ≠ 0 ∨ userTop < oldSize ∨ userTop < newSize ∨
      3 < flags ∨
        flags.testBit 1 ∧ flags.testBit 0 = false ∨ userAnyMappingRangeOk oldAddr old = false ∨
          userTop < new then
      (m, -einval)
    else
      match (pages oldAddr old).mapM m.vmm.vmmUserTranslate with
      | none | some [] => (m, -efault)
      | some (first :: _) =>
        let prot := mremapPteToProt first
        if old = new then (m, oldAddr)
        else if new < old then
          match m.sysMunmap (oldAddr + new) (old - new) fs gs with
          | (m, rc) => (m, if rc < 0 then -efault else oldAddr)
        else if flags.testBit 0 = false then
          if userAnyMappingRangeOk (oldAddr + old) (new - old) = false ∨
              m.vmm.rangeFree (oldAddr + old) (new - old) = false then (m, -enomem)
          else
            match m.vmm.mapPages (Vmm.mapZero (Vmm.protToPte prot))
              (pages (oldAddr + old) (new - old)) with
            | (v, rc) => ({ m with vmm := v }, if rc ≠ 0 then -enomem else oldAddr)
        else if flags.testBit 1 then
          if newAddr % pageSize ≠ 0 ∨ userAnyMappingRangeOk newAddr new = false ∨ newAddr = oldAddr ∨
              newAddr < oldAddr + old ∧ oldAddr < newAddr + new then (m, -einval)
          else
            { m with vmm := m.vmm.unmapPages (pages newAddr new) }.mremapMove oldAddr oldSize
              newSize newAddr prot fs gs
        else
          match m.sysMmap 0 new 3 0x22 .negative 0 with
          | (m, n) =>
            if n < 0 then (m, n) else m.mremapMove oldAddr oldSize newSize n.toNat prot fs gs

theorem mapM_head {α β : Type} {f : α → Option β} {l : List α} {b : β} {bs : List β}
    (h : l.mapM f = some (b :: bs)) : ∃ a, f a = some b := by
  cases l with
  | nil => cases h
  | cons a l =>
    rw [List.mapM_cons] at h
    obtain ⟨b', hb', h⟩ := Option.bind_eq_some_iff.1 h
    obtain ⟨bs', -, h⟩ := Option.bind_eq_some_iff.1 h
    cases h
    exact ⟨a, hb'⟩

/-- The steps of `sys_munmap`, `sys_mprotect` and `sys_mremap`, and a property that each of them
keeps. -/
structure Kept (P : Mm → Prop) : Prop where
  activate {m m₁ : Mm} : P m → m.activate = some m₁ → P m₁
  remove {m : Mm} (start stop : ℕ) : P m → P (m.taskLazyMmapTransformShared start stop .remove 0).1
  setProt {m : Mm} (start stop : ℕ) {prot : ℕ} : Vmm.userProtWx prot = false → P m →
    P (m.taskLazyMmapTransformShared start stop .setProt prot).1
  unmap {m : Mm} (l : List ℕ) : P m → P { m with vmm := m.vmm.unmapPages l }
  fbUnmap {m : Mm} (addr size : ℕ) : P m → P { m with vmm := (m.vmm.graphicsFbUnmap addr size).1 }
  protect {m : Mm} (lazy : ℕ → Bool) (l : List ℕ) {prot : ℕ} : Vmm.userProtWx prot = false → P m →
    P { m with vmm := (Vmm.eachPage (Vmm.mprotectStep prot lazy) l m.vmm).1 }
  copy {m : Mm} (root src dst len : ℕ) (l : List ℕ) : P m →
    P { m with vmm := (mremapCopy root src dst len l m.vmm).1 }
  grow {m : Mm} {va : ℕ} {e : Pte} (l : List ℕ) : m.vmm.vmmUserTranslate va = some e → P m →
    P { m with vmm := (m.vmm.mapPages (Vmm.mapZero (Vmm.protToPte (mremapPteToProt e))) l).1 }
  mmap {m : Mm} (addr len prot flags : ℕ) (fd : MmapFd) (off : ℕ) : P m →
    P (m.sysMmap addr len prot flags fd off).1

namespace Kept

variable {P : Mm → Prop} {m : Mm}

theorem sysMunmap (k : Kept P) (h : P m) (addr len fs gs : ℕ) :
    P (m.sysMunmap addr len fs gs).1 := by
  unfold Mm.sysMunmap
  split
  · exact h
  next m₁ ha =>
  have h₁ := k.activate h ha
  dsimp only
  split
  · exact h₁
  split
  · exact h₁
  split
  · exact h₁
  split
  · exact k.fbUnmap addr (pageUp len) h₁
  · have ht := k.remove addr (addr + pageUp len) h₁
    generalize m₁.taskLazyMmapTransformShared addr (addr + pageUp len) .remove 0 = r at ht ⊢
    split_ifs
    · exact ht
    · exact k.unmap _ ht

theorem sysMprotect (k : Kept P) (h : P m) (addr len prot : ℕ) :
    P (m.sysMprotect addr len prot).1 := by
  unfold Mm.sysMprotect
  split
  · exact h
  next m₁ ha =>
  have h₁ := k.activate h ha
  dsimp only
  split
  · exact h₁
  split
  · exact h₁
  next hwx =>
  have hp : Vmm.userProtWx prot = false := by simpa using hwx
  split
  · exact h₁
  have ht := k.setProt addr (addr + pageUp len) hp h₁
  generalize m₁.taskLazyMmapTransformShared addr (addr + pageUp len) .setProt prot = r at ht ⊢
  split
  · exact ht
  · exact k.protect _ _ hp ht

theorem mremapMove (k : Kept P) (h : P m) (oldAddr oldSize newSize target prot fs gs : ℕ) :
    P (m.mremapMove oldAddr oldSize newSize target prot fs gs).1 := by
  simp only [Mm.mremapMove]
  have hc := k.copy m.task.cr3 oldAddr target (min oldSize newSize)
    (List.range ((min oldSize newSize + 255) / 256)) h
  generalize mremapCopy m.task.cr3 oldAddr target (min oldSize newSize)
    (List.range ((min oldSize newSize + 255) / 256)) m.vmm = r at hc ⊢
  split
  · exact k.sysMunmap hc ..
  have hp : P (if Vmm.userProtWx prot then ({ m with vmm := r.1 }, (0 : ℤ))
      else { m with vmm := r.1 }.sysMprotect target (pageUp newSize) prot).1 := by
    split_ifs
    · exact hc
    · exact k.sysMprotect hc ..
  generalize (if Vmm.userProtWx prot then ({ m with vmm := r.1 }, (0 : ℤ))
    else { m with vmm := r.1 }.sysMprotect target (pageUp newSize) prot) = q at hp ⊢
  split
  · exact k.sysMunmap hp ..
  have hun := k.sysMunmap hp oldAddr (pageUp oldSize) fs gs
  split
  · exact k.sysMunmap hun ..
  · exact hun

theorem sysMremap (k : Kept P) (h : P m) (oldAddr oldSize newSize flags newAddr fs gs : ℕ) :
    P (m.sysMremap oldAddr oldSize newSize flags newAddr fs gs).1 := by
  unfold Mm.sysMremap
  split
  · exact h
  next m₁ ha =>
  have h₁ := k.activate h ha
  dsimp only
  split
  · exact h₁
  split
  · exact h₁
  · exact h₁
  next first rest hall =>
  obtain ⟨va, hva⟩ := mapM_head hall
  split
  · exact h₁
  split
  · exact k.sysMunmap h₁ ..
  split
  · split
    · exact h₁
    · exact k.grow _ hva h₁
  split
  · split
    · exact h₁
    · exact k.mremapMove (k.unmap _ h₁) ..
  · have hm := k.mmap 0 (pageUp newSize) 3 0x22 .negative 0 h₁
    generalize m₁.sysMmap 0 (pageUp newSize) 3 0x22 .negative 0 = r at hm ⊢
    split
    · exact hm
    · exact k.mremapMove hm ..

end Kept

end Mm

end YabroOS.Memory
