import YabroOS.Memory.Fork

namespace YabroOS.Memory

open Lib Function

def efault : Int := 14

/-- The physical memory as the virtual memory manager sees it. Address spaces are indexed by the
frame of their root, `user` is `g_user`, `bytes` holds the contents of the data pages, and `upper`
the entries of the roots for the upper half, as they are. -/
structure Vmm where
  pmm : Pmm
  spaces : Slots (Tab 3)
  user : Option ℕ
  bytes : ℕ → ℕ → UInt8
  fbPhys : ℕ
  fbSize : ℕ
  upper : ℕ → ℕ → ℕ
  kernelCr3 : ℕ

namespace Vmm

def vmmUserActivate (s : Vmm) (root : ℕ) : Vmm × Int :=
  if s.pmm.table root then ({ s with user := some root }, 0) else (s, -1)

def vmmUserTranslateCr3 (s : Vmm) (root virt : ℕ) : Option Pte :=
  if canonicalUser virt then
    match s.spaces.get? root with
    | none => none
    | some t => Tab.walk s.pmm 3 root t virt
  else none

def setLeafIn (spaces : Slots (Tab 3)) (root virt : ℕ) (e : Option Pte) : Slots (Tab 3) :=
  match spaces.get? root with
  | none => spaces
  | some t => spaces.set root (Tab.setLeaf 3 t virt e)

def setLeaf (s : Vmm) (root virt : ℕ) (e : Option Pte) : Vmm :=
  { s with spaces := setLeafIn s.spaces root virt e }

def vmmUserSpaceClone (s : Vmm) (root : ℕ) : Vmm × Except Int ℕ :=
  match s.spaces.get? root with
  | none => (s, .error (-1))
  | some src =>
    if s.pmm.table root then
      match s.pmm.allocTable with
      | (pmm, none) => ({ s with pmm := pmm }, .error (-1))
      | (pmm, some dstPhys) =>
        match Tab.cloneLoop (Tab.cloneUserTables 2) pmm (Tab.empty 3) (Slots.list src) with
        | (pmm, dst, some err) =>
          ({ s with pmm := Tab.destroyCloneLevel 3 pmm dstPhys dst }, .error err)
        | (pmm, dst, none) =>
          let (pmm, rc) := Tab.preflightLoop (Tab.preflightForkPages 2) pmm (Slots.list src)
          if rc ≠ 0 then ({ s with pmm := Tab.destroyCloneLevel 3 pmm dstPhys dst }, .error (-1))
          else
            let (pmm, src', dst', rc) :=
              Tab.applyLoop (Tab.applyForkCow 2) pmm src dst (Slots.list src)
            let spaces := s.spaces.set root src'
            if rc ≠ 0 then
              ({ s with pmm := Tab.destroyCloneLevel 3 pmm dstPhys dst', spaces := spaces },
                .error (-1))
            else ({ s with
              pmm := pmm, spaces := spaces.set dstPhys dst',
              upper := update s.upper dstPhys (s.upper root) }, .ok dstPhys)
    else (s, .error (-1))

def fbFrame (s : Vmm) (frame : ℕ) : Bool :=
  let fb := Pmm.pageOf s.fbPhys
  s.fbSize ≠ 0 ∧ fb ≤ frame * pageSize ∧ frame * pageSize < fb + Pmm.pageOf (s.fbSize + pageSize - 1)

def vmmUserSpaceDestroy (s : Vmm) (root : ℕ) : Vmm × Int :=
  match s.spaces.get? root with
  | none => (s, -1)
  | some t =>
    if s.pmm.table root then
      let pmm := Tab.destroyUserLevel s.fbFrame 3 s.pmm root t
      ({ s with pmm := pmm.pmmFreePage (root * pageSize), spaces := s.spaces.erase root }, 0)
    else (s, -1)

def vmmUserCowFault (s : Vmm) (root addr : ℕ) : Vmm × Int :=
  let virt := Pmm.pageOf addr
  match s.vmmUserTranslateCr3 root virt with
  | none => (s, -1)
  | some pte =>
    if pte.u = false ∨ pte.cow = false ∨ pte.w then (s, -1)
    else if s.pmm.pmmPageRefcount (pte.frame * pageSize) = 1 then
      (s.setLeaf root virt (some { pte with w := true, cow := false }), 0)
    else
      match s.pmm.pmmAllocPage with
      | (pmm, none) => ({ s with pmm := pmm }, -1)
      | (pmm, some np) =>
        if pmm.physToVirtOk (pte.frame * pageSize) ∧ pmm.physToVirtOk (np * pageSize) then
          let s := { s with bytes := update s.bytes np (s.bytes pte.frame) }
          let s := s.setLeaf root virt
            (some { pte with frame := np, u := true, w := true, cow := false, high := 0 })
          ({ s with pmm := pmm.pmmFreePage (pte.frame * pageSize) }, 0)
        else ({ s with pmm := pmm.pmmFreePage (np * pageSize) }, -1)

def userPte (frame : ℕ) (flags : PteFlags) : Pte :=
  { w := flags.w, u := true, nx := flags.nx, pwt := flags.pwt, pcd := flags.pcd, cow := false,
    low := 0, high := 0, frame := frame, ps := false }

def vmmUserMap (s : Vmm) (virt frame : ℕ) (flags : PteFlags) : Vmm × Int :=
  match s.user with
  | none => (s, -1)
  | some root =>
    if canonicalUser virt = false ∨ virt % pageSize ≠ 0 ∨ s.pmm.table root = false then (s, -1)
    else
      match s.spaces.get? root with
      | none => (s, -1)
      | some t =>
        let (pmm, t, ok) := Tab.mapLeaf 3 s.pmm t virt (userPte frame flags)
        ({ s with pmm := pmm, spaces := s.spaces.set root t }, if ok then 0 else -1)

def vmmUserTranslate (s : Vmm) (virt : ℕ) : Option Pte :=
  match s.user with
  | none => none
  | some root => s.vmmUserTranslateCr3 root virt

def vmmUserUnmap (s : Vmm) (virt : ℕ) : Vmm × Option Pte :=
  match s.user with
  | none => (s, none)
  | some root =>
    if virt % pageSize ≠ 0 then (s, none)
    else
      match s.vmmUserTranslateCr3 root virt with
      | none => (s, none)
      | some e => (s.setLeaf root virt none, some e)

def vmmUserProtect (s : Vmm) (virt : ℕ) (flags : PteFlags) : Vmm × Int :=
  match s.user with
  | none => (s, -1)
  | some root =>
    if virt % pageSize ≠ 0 then (s, -1)
    else
      match s.vmmUserTranslateCr3 root virt with
      | none => (s, -1)
      | some pte =>
        if flags.w && pte.cow then
          let (s, rc) := s.vmmUserCowFault root virt
          if rc ≠ 0 then (s, -1)
          else
            match s.vmmUserTranslateCr3 root virt with
            | none => (s, -1)
            | some pte => (s.setLeaf root virt (some (userPte pte.frame flags)), 0)
        else (s.setLeaf root virt (some (userPte pte.frame flags)), 0)

def writeBytes (b : ℕ → UInt8) (off : ℕ) (data : List UInt8) : ℕ → UInt8 :=
  fun o ↦ if off ≤ o then (data[o - off]?).getD (b o) else b o

def putBytes (s : Vmm) (frame off : ℕ) (data : List UInt8) : Vmm :=
  { s with bytes := update s.bytes frame (writeBytes (s.bytes frame) off data) }

def writablePage (s : Vmm) (root page : ℕ) : Vmm × Option Pte :=
  match s.vmmUserTranslateCr3 root page with
  | none => (s, none)
  | some pte =>
    if pte.u = false then (s, none)
    else if pte.w then (s, some pte)
    else if pte.cow = false then (s, none)
    else
      let (s, rc) := s.vmmUserCowFault root page
      if rc ≠ 0 then (s, none)
      else
        match s.vmmUserTranslateCr3 root page with
        | none => (s, none)
        | some pte => if pte.u = false ∨ pte.w = false then (s, none) else (s, some pte)

/-- One round per page; `fuel` bounds the rounds, and each consumes a byte at least. -/
def copyToLoop (root : ℕ) : ℕ → Vmm → ℕ → List UInt8 → Vmm × Int
  | 0, s, _, data => (s, if data = [] then 0 else -efault)
  | fuel + 1, s, dst, data =>
    if data = [] then (s, 0)
    else
      let off := dst % pageSize
      let n := pageSize - off
      match s.writablePage root (Pmm.pageOf dst) with
      | (s, none) => (s, -efault)
      | (s, some pte) =>
        if s.pmm.physToVirtOk (pte.frame * pageSize) then
          copyToLoop root fuel (s.putBytes pte.frame off (data.take n)) (dst + n) (data.drop n)
        else (s, -efault)

def userCopyToCr3 (s : Vmm) (root dst : ℕ) (data : List UInt8) : Vmm × Int :=
  if root = 0 then (s, -efault) else copyToLoop root data.length s dst data

/-- The processor's translation of a user address with the address space's root loaded. -/
def cpuAccess (s : Vmm) (root va : ℕ) : Option (Pte × Bool × Bool) :=
  if canonicalUser va then (s.spaces.get? root).bind (fun t ↦ Tab.cpuWalk 3 t va) else none

def writeByte (s : Vmm) (frame off : ℕ) (b : UInt8) : Vmm :=
  { s with bytes := update s.bytes frame (update (s.bytes frame) off b) }

def userStore (s : Vmm) (root va : ℕ) (b : UInt8) : Vmm :=
  match s.cpuAccess root va with
  | none => s
  | some (e, true, true) => s.writeByte e.frame (va % pageSize) b
  | some _ =>
    let (s, rc) := s.vmmUserCowFault root va
    if rc ≠ 0 then s
    else
      match s.cpuAccess root va with
      | some (e, true, true) => s.writeByte e.frame (va % pageSize) b
      | _ => s

def userLoad (s : Vmm) (root va : ℕ) : Option UInt8 :=
  match s.cpuAccess root va with
  | some (e, _, true) => some (s.bytes e.frame (va % pageSize))
  | _ => none

def userProtWx (prot : ℕ) : Bool := prot.testBit 1 && prot.testBit 2

def protToPte (prot : ℕ) : PteFlags :=
  { w := prot.testBit 1, u := false, nx := !prot.testBit 2, pwt := false, pcd := false,
    cow := false, low := 0, high := 0 }

def mapFresh (s : Vmm) (virt : ℕ) (content : ℕ → UInt8) (flags : PteFlags) : Vmm × Int :=
  match s.pmm.pmmAllocPage with
  | (pmm, none) => ({ s with pmm := pmm }, -1)
  | (pmm, some frame) =>
    if pmm.physToVirtOk (frame * pageSize) then
      let s := { s with pmm := pmm, bytes := update s.bytes frame content }
      match s.vmmUserMap virt frame flags with
      | (s, rc) =>
        if rc ≠ 0 then ({ s with pmm := s.pmm.pmmFreePage (frame * pageSize) }, rc) else (s, rc)
    else ({ s with pmm := pmm.pmmFreePage (frame * pageSize) }, -1)

def unmapFree (s : Vmm) (virt : ℕ) : Vmm :=
  match s.vmmUserUnmap virt with
  | (s, none) => s
  | (s, some e) =>
    if e.frame = 0 then s else { s with pmm := s.pmm.pmmFreePage (e.frame * pageSize) }

def mprotectPage (s : Vmm) (virt prot : ℕ) : Vmm :=
  if userProtWx prot then s
  else if prot = 0 then s.unmapFree virt
  else (s.vmmUserProtect virt (protToPte prot)).1

inductive Op
  | activate (root : ℕ)
  | clone (root : ℕ)
  | cowFault (root addr : ℕ)
  | map (virt : ℕ) (content : ℕ → UInt8) (flags : PteFlags)
  | unmap (virt : ℕ)
  | mprotect (virt prot : ℕ)
  | copyTo (root dst : ℕ) (data : List UInt8)
  | store (root va : ℕ) (b : UInt8)
  | destroy (root : ℕ)

def step (s : Vmm) : Op → Vmm
  | .activate root => (s.vmmUserActivate root).1
  | .clone root => (s.vmmUserSpaceClone root).1
  | .cowFault root addr => (s.vmmUserCowFault root addr).1
  | .map virt content flags => (s.mapFresh virt content flags).1
  | .unmap virt => s.unmapFree virt
  | .mprotect virt prot => s.mprotectPage virt prot
  | .copyTo root dst data => (s.userCopyToCr3 root dst data).1
  | .store root va b => s.userStore root va b
  | .destroy root => (s.vmmUserSpaceDestroy root).1

end Vmm

end YabroOS.Memory
