import YabroOS.Memory.Mmap

namespace YabroOS.Memory

open Lib Function

def userStackTop : ℕ := 0x00007FFFFFFFF000
def userStackSize : ℕ := 0x00040000
def pieBase : ℕ := 0x400000
def interpBase : ℕ := 0x00007f0000000000

structure Phdr where
  type : ℕ
  flags : ℕ
  offset : ℕ
  vaddr : ℕ
  filesz : ℕ
  memsz : ℕ
  deriving DecidableEq

/-- An executable file. The header and the program header table have passed the loader's checks if
`valid`, and `read` is the reader of the file, which gives up outside it. -/
structure ElfImage where
  size : ℕ
  valid : Bool
  pie : Bool
  entry : ℕ
  phoff : ℕ
  phdrs : List Phdr
  read : ℕ → ℕ → Option (List UInt8)

def ElfImage.readExact (img : ElfImage) (off len : ℕ) : Option (List UInt8) :=
  if img.size < off ∨ img.size - off < len then none
  else (img.read off len).filter (fun bytes ↦ bytes.length = len)

namespace Vmm

variable (s : Vmm)

def vmmUserSpaceCreate : Vmm × ℤ :=
  match s.pmm.allocTable with
  | (pmm, none) => ({ s with pmm := pmm }, -1)
  | (pmm, some root) =>
    ({ s with
        pmm := pmm
        spaces := s.spaces.set root (Tab.empty 3)
        user := some root
        upper := update s.upper root (s.upper s.kernelCr3) }, 0)

def segWrite (pflags : ℕ) : Bool := pflags.testBit 1
def segExec (pflags : ℕ) : Bool := pflags.testBit 0

def segmentFlags (pflags : ℕ) : PteFlags :=
  ⟨segWrite pflags, false, !segExec pflags, false, false, false, 0, 0⟩

def mergedFlags (e : Pte) (pflags : ℕ) : PteFlags :=
  ⟨e.w || segWrite pflags, false, e.nx && !segExec pflags, false, false, false, 0, 0⟩

def mapUserPage (pflags : ℕ) (s : Vmm) (va : ℕ) : Vmm × ℤ :=
  match s.vmmUserTranslate va with
  | some e => s.vmmUserProtect va (mergedFlags e pflags)
  | none =>
    match s.pmm.pmmAllocPage with
    | (pmm, none) => ({ s with pmm := pmm }, -1)
    | (pmm, some frame) =>
      match { s with pmm := pmm }.vmmUserMap va frame (segmentFlags pflags) with
      | (s, rc) =>
        if rc ≠ 0 then (s, -1)
        else if s.pmm.physToVirtOk (frame * pageSize) then
          ({ s with bytes := update s.bytes frame (fun _ ↦ 0) }, 0)
        else (s, -1)

def mapUserRange (start stop pflags : ℕ) : Vmm × ℤ :=
  if stop ≤ start ∨ userTop < stop then (s, -1)
  else
    match eachPage (mapUserPage pflags) (pages (Pmm.pageOf start) (pageUp stop - Pmm.pageOf start))
      s with
    | (s, _, rc) => (s, rc)

def stackPage (s : Vmm) (va : ℕ) : Vmm × ℤ :=
  match s.pmm.pmmAllocPage with
  | (pmm, none) => ({ s with pmm := pmm }, -1)
  | (pmm, some frame) =>
    match { s with pmm := pmm }.vmmUserMap va frame heapFlags with
    | (s, rc) =>
      if rc ≠ 0 then (s, -1)
      else if s.pmm.physToVirtOk (frame * pageSize) then
        ({ s with bytes := update s.bytes frame (fun _ ↦ 0) }, 0)
      else (s, -1)

def mapUserStack : Vmm × ℤ :=
  match eachPage stackPage (pages (userStackTop - userStackSize) userStackSize) s with
  | (s, _, rc) => (s, rc)

/-- The loop of `copy_to_user`, `copy_to_user_loader` and `zero_user_loader`, which differ in the
entries they accept. -/
def storeLoop (ok : Pte → Bool) : ℕ → Vmm → ℕ → List UInt8 → Vmm × ℤ
  | 0, s, _, data => (s, if data = [] then 0 else -14)
  | fuel + 1, s, dst, data =>
    if data = [] then (s, 0)
    else
      match s.vmmUserTranslate (Pmm.pageOf dst) with
      | none => (s, -14)
      | some e =>
        if ok e ∧ s.pmm.physToVirtOk (e.frame * pageSize) then
          storeLoop ok fuel
            (s.putBytes e.frame (dst % pageSize) (data.take (pageSize - dst % pageSize)))
            (dst + (pageSize - dst % pageSize)) (data.drop (pageSize - dst % pageSize))
        else (s, -14)

def copyToUser (dst : ℕ) (data : List UInt8) : Vmm × ℤ :=
  storeLoop (fun e ↦ e.u && e.w) data.length s dst data

def copyToUserLoader (dst : ℕ) (data : List UInt8) : Vmm × ℤ :=
  storeLoop (fun e ↦ e.u) data.length s dst data

def copySegment (img : ElfImage) (ph : Phdr) (va : ℕ) : List ℕ → Vmm → Vmm × ℤ
  | [], s => (s, 0)
  | k :: l, s =>
    match img.readExact (ph.offset + k * pageSize) (min pageSize (ph.filesz - k * pageSize)) with
    | none => (s, -1)
    | some data =>
      match s.copyToUserLoader (va + k * pageSize) data with
      | (s, rc) => if rc ≠ 0 then (s, -1) else copySegment img ph va l s

def loadSegment (img : ElfImage) (bias : ℕ) (ph : Phdr) : Vmm × ℤ :=
  let va := (ph.vaddr + bias) % 2 ^ 64
  let stop := (va + ph.memsz) % 2 ^ 64
  if ph.memsz < ph.filesz ∨ img.size < ph.offset ∨ img.size - ph.offset < ph.filesz ∨
    2 ^ 64 - 1 - ph.memsz < ph.vaddr ∨
      va < ph.vaddr ∨ userTop ≤ va ∨ userTop < stop ∨ stop < va ∨
        pageUp stop ≤ Pmm.pageOf va then (s, -1)
  else
    match s.mapUserRange (Pmm.pageOf va) (pageUp stop) ph.flags with
    | (s, rc) =>
      if rc ≠ 0 then (s, -1)
      else
        match copySegment img ph va (List.range ((ph.filesz + (pageSize - 1)) / pageSize)) s with
        | (s, rc) =>
          if rc ≠ 0 then (s, -1)
          else s.copyToUserLoader (va + ph.filesz) (List.replicate (ph.memsz - ph.filesz) 0)

structure Loaded where
  count : ℕ
  entryExec : Bool
  imageEnd : ℕ

def Loaded.add (l : Loaded) (bias entry : ℕ) (ph : Phdr) : Loaded where
  count := l.count + 1
  entryExec :=
    l.entryExec ||
      (segExec ph.flags && ph.vaddr + bias ≤ entry && entry < ph.vaddr + bias + ph.memsz)
  imageEnd := max l.imageEnd (ph.vaddr + bias + ph.memsz)

def loadSegments (img : ElfImage) (bias entry : ℕ) (interp : Bool) :
    List Phdr → Vmm → Loaded → Vmm × Option Loaded
  | [], s, l => (s, some l)
  | ph :: phs, s, l =>
    if ph.type ≠ 1 then loadSegments img bias entry interp phs s l
    else if ph.memsz = 0 then
      if interp then (s, none)
      else loadSegments img bias entry interp phs s { l with count := l.count + 1 }
    else
      match s.loadSegment img bias ph with
      | (s, rc) =>
        if rc ≠ 0 then (s, none) else loadSegments img bias entry interp phs s (l.add bias entry ph)

def loadImage (img : ElfImage) (bias : ℕ) (interp : Bool) : Vmm × Option Loaded :=
  match loadSegments img bias ((img.entry + bias) % 2 ^ 64) interp img.phdrs s ⟨0, false, 0⟩ with
  | (s, none) => (s, none)
  | (s, some l) =>
    (s, if l.count = 0 ∨ l.entryExec = false ∨ userTop ≤ (img.entry + bias) % 2 ^ 64 then none
      else some l)

def loadBootfsElfImage (img : Option ElfImage) (bias : ℕ) : Vmm × Option ℕ :=
  match img with
  | none => (s, none)
  | some img =>
    if img.valid = false then (s, none)
    else
      match s.loadImage img bias true with
      | (s, none) => (s, none)
      | (s, some _) => (s, some ((img.entry + bias) % 2 ^ 64))

def le64 (x : ℕ) : List UInt8 := (List.range 8).map (fun i ↦ UInt8.ofNat (x / 256 ^ i))

def phdrVa (img : ElfImage) (bias : ℕ) : ℕ :=
  let va := match img.phdrs.find? (fun ph ↦ ph.type = 6) with
    | some ph => (ph.vaddr + bias) % 2 ^ 64
    | none => 0
  if va ≠ 0 then va
  else
    match img.phdrs.find? (fun ph ↦
      ph.type = 1 ∧ ph.offset ≤ img.phoff ∧ img.phoff < (ph.offset + ph.filesz) % 2 ^ 64) with
    | some ph => (ph.vaddr + (img.phoff - ph.offset) + bias) % 2 ^ 64
    | none => 0

/-- The arguments of `execve` as the kernel has copied them. -/
structure ExecArgs where
  path : List UInt8
  argv : List (List UInt8)
  envp : List (List UInt8)

def ExecArgs.execfn (a : ExecArgs) : List UInt8 :=
  match a.path with
  | [] => [47, 63]
  | c :: cs => ((if c ≠ 47 then [47] else []) ++ c :: cs).take 127

def placeStrings : List (List UInt8) → ℕ → List (ℕ × List UInt8) × ℕ
  | [], cursor => ([], cursor)
  | str :: strs, cursor =>
    match placeStrings strs ((cursor - (str.length + 1)) / 16 * 16) with
    | (placed, low) => (((cursor - (str.length + 1)) / 16 * 16, str ++ [0]) :: placed, low)

def copyAll : List (ℕ × List UInt8) → Vmm → Vmm × ℤ
  | [], s => (s, 0)
  | (va, data) :: l, s =>
    match s.copyToUser va data with
    | (s, rc) => if rc ≠ 0 then (s, -1) else copyAll l s

def randomBytes : List UInt8 :=
  [0x51, 0x8b, 0x2d, 0x71, 0x19, 0xc4, 0x63, 0xa7, 0x9e, 0x42, 0xd8, 0x05, 0x6c, 0xf1, 0x37, 0xb0]

def execfnVa : ℕ := (userStackTop - 64) / 16 * 16
def randomVa : ℕ := (execfnVa - 16) / 16 * 16

def auxv (img : ElfImage) (bias entry interp : ℕ) : List ℕ :=
  (if phdrVa img bias ≠ 0 then [3, phdrVa img bias] else []) ++
    [4, 56, 5, img.phdrs.length, 6, pageSize, 9, entry] ++ (if interp ≠ 0 then [7, interp]
      else []) ++
    [25, randomVa, 31, execfnVa, 0, 0]

def initUserStack (img : ElfImage) (bias entry interp : ℕ) (a : ExecArgs) : Vmm × Option ℕ :=
  let argv := if a.argv = [] then [a.execfn] else a.argv
  if 16 < a.argv.length ∨ 16 < a.envp.length then (s, none)
  else
    match copyAll [(execfnVa, a.execfn ++ [0]), (randomVa, randomBytes)] s with
    | (s, rc) =>
      if rc ≠ 0 ∨ (argv ++ a.envp).any (fun str ↦ 255 < str.length) then (s, none)
      else
        match placeStrings (argv ++ a.envp) randomVa with
        | (placed, cursor) =>
          match copyAll placed s with
          | (s, rc) =>
            let vector := argv.length :: (placed.take argv.length).map Prod.fst ++ [0] ++
              (placed.drop argv.length).map Prod.fst ++ [0] ++ auxv img bias entry interp
            if rc ≠ 0 ∨ cursor < 8 * vector.length + 24 then (s, none)
            else
              let sp := (cursor - 16 - 8 * vector.length - 8) / 16 * 16 + 8
              if cursor - 16 < sp + 8 * vector.length then (s, none)
              else
                match s.copyToUser sp (vector.flatMap le64) with
                | (s, rc) =>
                  if rc ≠ 0 ∨ s.vmmUserRangeOk sp (8 * vector.length) true = false then (s, none)
                  else (s, some sp)

def execTargetValid (root entry stack : ℕ) : Bool :=
  entry ≠ 0 ∧ 16 ≤ stack ∧ entry < userTop ∧ stack ≤ userStackTop ∧
    (s.vmmUserTranslateCr3 root (Pmm.pageOf entry)).any (fun e ↦ e.u && !e.nx) ∧
    (s.vmmUserTranslateCr3 root (Pmm.pageOf (stack - 1))).any (fun e ↦ e.u && e.w) ∧
    s.vmmUserRangeOk (stack - 16) 16 true

end Vmm

/-- A file that `execve` has found, and the boot file system that has its interpreter. -/
structure ExecFile where
  image : ElfImage
  bootfs : List UInt8 → Option ElfImage

def ExecFile.Sized (f : ExecFile) : Prop := 0 < f.image.size ∧ f.image.size ≤ 2 ^ 27

/-- `PT_INTERP` of the image: nothing if there is none, and an error if it cannot be read. -/
def ElfImage.interpPath (img : ElfImage) : Except ℤ (List UInt8) :=
  match img.phdrs.find? (fun ph ↦ ph.type = 3) with
  | none => .ok []
  | some ph =>
    if ph.filesz = 0 ∨ 256 ≤ ph.filesz then .error (-1)
    else
      match img.readExact ph.offset ph.filesz with
      | none => .error (-1)
      | some bytes => .ok (bytes.dropLast.takeWhile (· ≠ 0))

def ElfImage.bias (img : ElfImage) : ℕ := if img.pie then pieBase else 0

def imageHeapBase (imageEnd : ℕ) : ℕ :=
  let base := if userHeapBase < imageEnd then pageUp imageEnd else userHeapBase
  let base := if base < userHeapBase then userHeapBase else base
  if userHeapMax ≤ base then userHeapMax - pageSize else base

namespace Mm

variable (m : Mm)

def setTask (i : Slot) (t : UserTask) : Mm := { m with tasks := update m.tasks i t }

def userHeapResetForImage (imageEnd : ℕ) : Mm :=
  if m.task.used then
    m.setTask m.current
      { m.task with heapBase := imageHeapBase imageEnd, heapEnd := imageHeapBase imageEnd }
  else m

def finishImage (s : Vmm) (f : ExecFile) (a : Vmm.ExecArgs) : Vmm × Option (ℕ × ℕ) :=
  let entry := f.image.entry + f.image.bias
  match f.image.interpPath with
  | .error _ => (s, none)
  | .ok path =>
    match if path = [] then (s, some 0) else s.loadBootfsElfImage (f.bootfs path) interpBase with
    | (s, none) => (s, none)
    | (s, some interpEntry) =>
      match s.mapUserStack with
      | (s, rc) =>
        if rc ≠ 0 then (s, none)
        else
          match s.initUserStack f.image f.image.bias entry (if path = [] then 0
            else interpBase) a with
          | (s, none) => (s, none)
          | (s, some sp) => (s, some (if interpEntry ≠ 0 then interpEntry else entry, sp))

def startImage (s : Vmm) (img : ElfImage) : Vmm × Option ℕ :=
  if img.valid = false then (s, none)
  else
    match s.vmmUserSpaceCreate with
    | (s, rc) =>
      if rc ≠ 0 ∨ (img.entry + img.bias) % 2 ^ 64 < img.entry then (s, none)
      else
        match s.loadImage img img.bias false with
        | (s, none) => (s, none)
        | (s, some l) => (s, some l.imageEnd)

def loadElfWithArgsReader (f : ExecFile) (a : Vmm.ExecArgs) : Mm × Option (ℕ × ℕ) :=
  match startImage m.vmm f.image with
  | (s, none) => ({ m with vmm := s }, none)
  | (s, some imageEnd) =>
    match finishImage s f a with
    | (s, r) => ({ m with vmm := s }.userHeapResetForImage imageEnd, r)

def taskCr3IsShared (i : Slot) : Bool :=
  (m.tasks i).cr3 ≠ 0 ∧ ∃ j, j ≠ i ∧ (m.tasks j).used ∧ (m.tasks j).cr3 = (m.tasks i).cr3

def replaceImage (newCr3 : ℕ) : Mm :=
  let v := if m.task.cr3 ≠ 0 ∧ m.task.cr3 ≠ newCr3 ∧ m.taskCr3IsShared m.current = false then
    (m.vmm.vmmUserSpaceDestroy m.task.cr3).1 else m.vmm
  { m with vmm := v }.setTask m.current
    { m.task with cr3 := newCr3, mmapNext := userMmapMin, lazyMmaps := [] }

/-- The entry point and the stack pointer of the new image, which is in `g_user`. -/
def kernelExecveFileArgs (file : Option ExecFile) (a : Vmm.ExecArgs) : Mm × Except ℤ (ℕ × ℕ) :=
  match file with
  | none => (m, .error (-2))
  | some f =>
    if f.image.size = 0 ∨ 2 ^ 27 < f.image.size then (m, .error (-8))
    else
      match m.loadElfWithArgsReader f a with
      | (m, none) => (m, .error (-8))
      | (m, some (entry, stack)) => (m, if entry = 0 then .error (-8) else .ok (entry, stack))

def sysExecve (file : Option ExecFile) (a : Vmm.ExecArgs) : Mm × ℤ :=
  match m.activate with
  | none => (m, -efault)
  | some m =>
    match m.kernelExecveFileArgs file a with
    | (m, .error rc) => (m, rc)
    | (m, .ok (entry, stack)) =>
      match m.vmm.user with
      | none => (m, -enomem)
      | some newCr3 =>
        if m.vmm.execTargetValid newCr3 entry stack then (m.replaceImage newCr3, 0) else (m, -enomem)

def firstHeap (file : Option ExecFile) : ℕ :=
  match file.bind fun f ↦ (startImage m.vmm f.image).2 with
  | none => userHeapBase
  | some imageEnd => imageHeapBase imageEnd

/-- The kernel's shell, which runs on the first task, starts a program. `task_init_root` has taken
the first task before; here it is in use once it has an address space. -/
def launch (file : Option ExecFile) (a : Vmm.ExecArgs) : Mm :=
  let heap := m.firstHeap file
  if m.current ≠ 0 then m
  else
    match m.kernelExecveFileArgs file a with
    | (m, .error _) => m
    | (m, .ok _) =>
      match m.vmm.user with
      | none => m
      | some root =>
        m.setTask m.current (if m.task.used then { m.task with cr3 := root }
          else ⟨true, false, root, heap, heap, userMmapMin, []⟩)

def freeSlot : Option Slot := (List.finRange 64).find? (fun i ↦ (m.tasks i).used = false)

def copyIds (root : ℕ) : List (ℕ × List UInt8) → Vmm → Vmm × ℤ
  | [], s => (s, 0)
  | (dst, data) :: l, s =>
    match s.userCopyToCr3 root dst data with
    | (s, rc) => if rc ≠ 0 then (s, -efault) else copyIds root l s

/-- `sys_clone`: `ok` says whether the arguments pass the checks, `fds` whether the descriptor table
could be cloned, and `ids` are the places for the id of the new task. -/
def sysClone (ok fds : Bool) (ids : List (ℕ × List UInt8)) : Mm × Option Slot :=
  if ok = false then (m, none)
  else
    match m.freeSlot with
    | none => (m, none)
    | some i =>
      let m := m.setTask i { m.task with used := fds, zombie := false }
      if fds = false then (m, none)
      else
        match copyIds m.task.cr3 ids m.vmm with
        | (v, rc) =>
          let m := { m with vmm := v }
          if rc ≠ 0 then (m.setTask i { m.tasks i with used := false }, none) else (m, some i)

def taskReapResources (i : Slot) : Mm :=
  let v := if (m.tasks i).cr3 ≠ 0 ∧ (m.tasks i).cr3 ≠ (m.tasks 0).cr3 ∧
    m.taskCr3IsShared i = false then
    (m.vmm.vmmUserSpaceDestroy (m.tasks i).cr3).1 else m.vmm
  { m with vmm := v }.setTask i { m.tasks i with cr3 := 0 }

def retire (i : Slot) : Mm :=
  let m := m.taskReapResources i
  m.setTask i { m.tasks i with used := false, zombie := false }

def sysFork (ok fds : Bool) : Mm :=
  match m.sysClone ok fds [] with
  | (m, none) => m
  | (m, some i) =>
    match m.vmm.vmmUserSpaceClone m.task.cr3 with
    | (v, .error _) => { m with vmm := v }.retire i
    | (v, .ok root) => { m with vmm := v }.setTask i { m.tasks i with cr3 := root }

def switchTo (next : Slot) : Mm :=
  if (m.tasks next).used ∧ (m.tasks next).zombie = false then
    { m with vmm := (m.vmm.vmmUserActivate (m.tasks next).cr3).1, current := next }
  else m

def sysExit (next : Slot) : Mm :=
  if m.current = 0 then m
  else
    let next := if (m.tasks next).used ∧ (m.tasks next).zombie = false ∧ next ≠ m.current then
      next else 0
    { m with vmm := (m.vmm.vmmUserActivate (m.tasks next).cr3).1, current := next }.setTask
      m.current { m.task with zombie := true }

def reap (i : Slot) : Mm := if (m.tasks i).used ∧ (m.tasks i).zombie then m.retire i else m

end Mm

/-- A call of the current task, a fault or a store of its code, a copy by the kernel to a task's
memory, a switch to another task, or a program that the kernel starts. -/
inductive MmCall
  | mmap (addr len prot flags : ℕ) (fd : MmapFd) (off : ℕ)
  | munmap (addr len fs gs : ℕ)
  | mprotect (addr len prot : ℕ)
  | mremap (oldAddr oldSize newSize flags newAddr fs gs : ℕ)
  | brk (addr : ℕ)
  | lazyFault (addr : ℕ) (write fetch : Bool)
  | cowFault (addr : ℕ)
  | copyTo (i : Slot) (dst : ℕ) (data : List UInt8)
  | store (va : ℕ) (b : UInt8)
  | clone (ok fds : Bool) (ids : List (ℕ × List UInt8))
  | fork (ok fds : Bool)
  | execve (file : Option ExecFile) (a : Vmm.ExecArgs)
  | launch (file : Option ExecFile) (a : Vmm.ExecArgs)
  | exit (next : Slot)
  | reap (i : Slot)
  | switch (next : Slot)

def MmCall.ofTask : MmCall → Bool
  | .copyTo _ _ _ | .launch _ _ | .reap _ | .switch _ => false
  | _ => true

def Mm.perform (m : Mm) : MmCall → Mm
  | .mmap addr len prot flags fd off => (m.sysMmap addr len prot flags fd off).1
  | .munmap addr len fs gs => (m.sysMunmap addr len fs gs).1
  | .mprotect addr len prot => (m.sysMprotect addr len prot).1
  | .mremap oldAddr oldSize newSize flags newAddr fs gs =>
    (m.sysMremap oldAddr oldSize newSize flags newAddr fs gs).1
  | .brk addr => (m.sysBrk addr).1
  | .lazyFault addr write fetch => (m.taskLazyPageFault addr write fetch).1
  | .cowFault addr => { m with vmm := (m.vmm.vmmUserCowFault m.task.cr3 addr).1 }
  | .copyTo i dst data =>
    if (m.tasks i).used then { m with vmm := (m.vmm.userCopyToCr3 (m.tasks i).cr3 dst data).1 }
    else m
  | .store va b => { m with vmm := m.vmm.userStore m.task.cr3 va b }
  | .clone ok fds ids => (m.sysClone ok fds ids).1
  | .fork ok fds => m.sysFork ok fds
  | .execve file a => (m.sysExecve file a).1
  | .launch file a => m.launch file a
  | .exit next => m.sysExit next
  | .reap i => m.reap i
  | .switch next => m.switchTo next

def Mm.step (m : Mm) (c : MmCall) : Mm := if c.ofTask ∧ m.task.used = false then m else m.perform c

def Mm.boot (pmm : Pmm) (bytes : ℕ → ℕ → UInt8) (fbPhys fbSize : ℕ) : Mm where
  vmm := ⟨pmm, Slots.empty, none, bytes, fbPhys, fbSize, fun _ _ ↦ 0, 0⟩
  tasks := fun _ ↦ ⟨false, false, 0, 0, 0, 0, []⟩
  current := 0

def Mm.run (m : Mm) (l : List MmCall) : Mm := l.foldl Mm.step m

end YabroOS.Memory
