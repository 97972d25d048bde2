import YabroOS.Kernel.State
import YabroOS.Memory.UserCopy

namespace YabroOS.Memory

open Lib Function

def userMmapMin : ℕ := 0x10000000
def userHeapBase : ℕ := 0x500000
def userHeapMax : ℕ := 0x0F000000
def maxLazyUserMmaps : ℕ := 128

def einval : ℤ := 22
def enomem : ℤ := 12
def eacces : ℤ := 13
def ebadf : ℤ := 9
def eio : ℤ := 5

def pageUp (x : ℕ) : ℕ := Pmm.pageOf ((x + (pageSize - 1)) % 2 ^ 64)

def pages (base size : ℕ) : List ℕ :=
  (List.range (size / pageSize)).map (fun k ↦ base + k * pageSize)

/-- A range that is reserved and has no pages yet. -/
structure LazyMmap where
  start : ℕ
  stop : ℕ
  prot : ℕ
  deriving DecidableEq

inductive LazyOp
  | remove
  | setProt
  | replace
  deriving DecidableEq

def LazyMmap.pieces (start stop : ℕ) (op : LazyOp) (prot : ℕ) (m : LazyMmap) : List LazyMmap :=
  if m.stop ≤ m.start then []
  else if m.stop ≤ start ∨ stop ≤ m.start then [m]
  else
    (if m.start < start then [⟨m.start, start, m.prot⟩] else []) ++
      (if op = .setProt ∧ max m.start start < min m.stop stop then
        [⟨max m.start start, min m.stop stop, prot⟩]
        else []) ++
      (if stop < m.stop then [⟨stop, m.stop, m.prot⟩] else [])

def taskLazyMmapTransform (l : List LazyMmap) (start stop : ℕ) (op : LazyOp) (prot : ℕ) :
    Except ℤ (List LazyMmap) :=
  let out := l.flatMap (LazyMmap.pieces start stop op prot) ++
    if op = .replace then [⟨start, stop, prot⟩] else []
  if stop ≤ start then .error (-22)
  else if maxLazyUserMmaps < out.length then .error (-12)
  else .ok out

/-- The fields of a task that describe its address space; `cr3` is the frame of the root. -/
structure UserTask where
  used : Bool
  zombie : Bool
  cr3 : ℕ
  heapBase : ℕ
  heapEnd : ℕ
  mmapNext : ℕ
  lazyMmaps : List LazyMmap
  deriving DecidableEq

/-- The address spaces with the tasks that run in them. -/
structure Mm where
  vmm : Vmm
  tasks : Slot → UserTask
  current : Slot

namespace Mm

variable (m : Mm)

def task : UserTask := m.tasks m.current

def shares (i : Slot) : Bool :=
  (m.tasks i).used && (i = m.current || (m.task.cr3 ≠ 0 && (m.tasks i).cr3 = m.task.cr3))

def updateShared (f : UserTask → UserTask) : Mm :=
  { m with tasks := fun i ↦ if m.shares i then f (m.tasks i) else m.tasks i }

def taskSharedMmapCursor : Mm × ℕ :=
  let high := (List.finRange 64).foldl
    (fun h i ↦ if m.shares i then max h (m.tasks i).mmapNext else h) userMmapMin
  (m.updateShared (fun t ↦ { t with mmapNext := high }), high)

def taskSharedMmapCursorAdvance (next : ℕ) : Mm :=
  m.taskSharedMmapCursor.1.updateShared
    (fun t ↦ { t with mmapNext := max m.taskSharedMmapCursor.2 next })

def taskSharedHeapSync (base stop : ℕ) : Mm :=
  m.updateShared (fun t ↦ { t with heapBase := base, heapEnd := stop })

def lazyLoop (start stop : ℕ) (op : LazyOp) (prot : ℕ) :
    List Slot → (Slot → UserTask) → (Slot → UserTask) × ℤ
  | [], ts => (ts, 0)
  | i :: l, ts =>
    match taskLazyMmapTransform (ts i).lazyMmaps start stop op prot with
    | .error rc => (ts, rc)
    | .ok out => lazyLoop start stop op prot l (update ts i { ts i with lazyMmaps := out })

def taskLazyMmapTransformShared (start stop : ℕ) (op : LazyOp) (prot : ℕ) : Mm × ℤ :=
  match lazyLoop start stop op prot ((List.finRange 64).filter m.shares) m.tasks with
  | (ts, rc) => ({ m with tasks := ts }, rc)

def taskLazyMmapProtection (t : UserTask) (addr : ℕ) : Option ℕ :=
  (t.lazyMmaps.find? (fun r ↦ r.start ≤ addr ∧ addr < r.stop)).map LazyMmap.prot

/-- The start of the calls: the address space of the current task becomes `g_user`. -/
def activate : Option Mm :=
  if m.task.cr3 = 0 ∨ (m.vmm.vmmUserActivate m.task.cr3).2 ≠ 0 then none
  else some { m with vmm := (m.vmm.vmmUserActivate m.task.cr3).1 }

end Mm

def userMmapRangeOk (addr len : ℕ) : Bool :=
  len ≠ 0 ∧ userMmapMin ≤ addr ∧ addr < userTop ∧ len ≤ userTop - addr

def userAnyMappingRangeOk (addr len : ℕ) : Bool := len ≠ 0 ∧ addr < userTop ∧ len ≤ userTop - addr

namespace Vmm

variable (s : Vmm)

def rangeFree (base size : ℕ) : Bool :=
  (pages base size).all (fun va ↦ s.vmmUserTranslate va = none)

def probe (base size : ℕ) : ℕ :=
  ((pages base size).find? (fun va ↦ s.vmmUserTranslate va ≠ none)).getD (base + size - pageSize)

def eachPage (f : Vmm → ℕ → Vmm × ℤ) : List ℕ → Vmm → Vmm × ℕ × ℤ
  | [], s => (s, 0, 0)
  | va :: l, s =>
    match f s va with
    | (s, rc) =>
      if rc ≠ 0 then (s, 0, rc)
      else
        match eachPage f l s with
        | (s, done, rc) => (s, done + 1, rc)

def unmapPages (l : List ℕ) : Vmm := l.foldl unmapFree s

def mapPages (f : Vmm → ℕ → Vmm × ℤ) (l : List ℕ) : Vmm × ℤ :=
  match eachPage f l s with
  | (s, done, rc) => if rc ≠ 0 then (s.unmapPages (l.take done), rc) else (s, 0)

/-- One page of the loop of `sys_mmap`; no contents stand for a file that cannot be read. -/
def mmapPage (fixed : Bool) (content : ℕ → Option (ℕ → UInt8)) (flags : PteFlags) (s : Vmm)
    (va : ℕ) : Vmm × ℤ :=
  match s.pmm.pmmAllocPage with
  | (pmm, none) => ({ s with pmm := pmm }, -enomem)
  | (pmm, some frame) =>
    if pmm.physToVirtOk (frame * pageSize) then
      let s := { s with pmm := pmm }
      let s := if fixed then s.unmapFree va else s
      match content va with
      | none => ({ s with pmm := s.pmm.pmmFreePage (frame * pageSize) }, -eio)
      | some bytes =>
        match { s with bytes := update s.bytes frame bytes }.vmmUserMap va frame flags with
        | (s, rc) =>
          if rc ≠ 0 then ({ s with pmm := s.pmm.pmmFreePage (frame * pageSize) }, -enomem)
          else (s, 0)
    else ({ s with pmm := pmm.pmmFreePage (frame * pageSize) }, -enomem)

def mapZero (flags : PteFlags) (s : Vmm) (va : ℕ) : Vmm × ℤ :=
  match s.mapFresh va (fun _ ↦ 0) flags with
  | (s, rc) => (s, if rc ≠ 0 then -enomem else 0)

def mprotectStep (prot : ℕ) (reserved : ℕ → Bool) (s : Vmm) (va : ℕ) : Vmm × ℤ :=
  match s.vmmUserTranslate va with
  | none =>
    if reserved va = false then (s, -efault)
    else if prot = 0 then (s, 0)
    else mapZero (protToPte prot) s va
  | some _ =>
    if prot = 0 then (s.unmapFree va, 0)
    else
      match s.vmmUserProtect va (protToPte prot) with
      | (s, rc) => (s, if rc ≠ 0 then -efault else 0)

def heapFlags : PteFlags := ⟨true, false, true, false, false, false, 0, 0⟩

def brkPage (s : Vmm) (va : ℕ) : Vmm × ℤ :=
  match s.vmmUserTranslate va with
  | some _ => (s, -1)
  | none =>
    match s.pmm.pmmAllocPage with
    | (pmm, none) => ({ s with pmm := pmm }, -1)
    | (pmm, some frame) =>
      if pmm.physToVirtOk (frame * pageSize) then
        match { s with pmm := pmm, bytes := update s.bytes frame (fun _ ↦ 0) }.vmmUserMap va frame
          heapFlags with
        | (s, rc) =>
          if rc ≠ 0 then ({ s with pmm := s.pmm.pmmFreePage (frame * pageSize) }, -1)
          else
            match s.vmmUserTranslate va with
            | some e => if e.u && e.w then (s, 0) else (s.unmapFree va, -1)
            | none => ({ s with pmm := s.pmm.pmmFreePage (frame * pageSize) }, -1)
      else ({ s with pmm := pmm.pmmFreePage (frame * pageSize) }, -1)

def fbFlags : PteFlags := ⟨true, false, true, true, true, false, 0, 0⟩

def fbPage (virt off : ℕ) (s : Vmm) (va : ℕ) : Vmm × ℤ :=
  s.vmmUserMap va (s.fbPhys / pageSize + off / pageSize + (va - virt) / pageSize) fbFlags

def graphicsFbMap (virt off len : ℕ) : Vmm × ℤ :=
  let size := pageUp len
  if s.fbSize = 0 ∨ virt = 0 ∨ virt % pageSize ≠ 0 ∨ off % pageSize ≠ 0 ∨ len = 0 ∨
    s.fbSize ≤ off then (s, -22)
  else if size = 0 ∨ pageUp (s.fbPhys % pageSize + (s.fbSize - off)) < size then (s, -22)
  else if userTop ≤ virt ∨ userTop - virt < size then (s, -22)
  else
    match eachPage (fbPage virt off) (pages virt size) s with
    | (s, done, rc) =>
      if rc ≠ 0 then (((pages virt size).take done).foldl (fun s va ↦ (s.vmmUserUnmap va).1) s, -12)
      else (s, size)

def fbUnmapPage (s : Vmm) (va : ℕ) : Vmm × ℤ :=
  match s.vmmUserUnmap va with
  | (s, none) => (s, -14)
  | (s, some _) => (s, 0)

def graphicsFbUnmap (virt size : ℕ) : Vmm × ℤ :=
  if virt = 0 ∨ virt % pageSize ≠ 0 ∨ size = 0 then (s, -22)
  else if pageUp size = 0 ∨ pageUp (s.fbSize + s.fbPhys % pageSize) < pageUp size then (s, -22)
  else
    match eachPage fbUnmapPage (pages virt (pageUp size)) s with
    | (s, _, rc) => (s, rc)

end Vmm

end YabroOS.Memory
