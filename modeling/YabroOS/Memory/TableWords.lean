import YabroOS.Lib.Follow
import YabroOS.Memory.PmmMoves

namespace YabroOS.Memory

open Lib Function

def pteP : UInt64 := 0x001
def pteW : UInt64 := 0x002
def pteU : UInt64 := 0x004
def ptePwt : UInt64 := 0x008
def ptePcd : UInt64 := 0x010
def ptePs : UInt64 := 0x080
def pteNx : UInt64 := 0x8000000000000000

/-- The page tables in memory: `words f i` is the 64-bit word at index `i` of the physical page `f`,
and `user` is `g_user.pml4_phys` when `g_user_valid`. -/
structure Paging where
  pmm : Pmm
  words : ℕ → ℕ → UInt64
  user : Option UInt64

namespace Paging

def table (s : Paging) (phys : UInt64) : Option ℕ :=
  if phys = 0 ∨ phys &&& 0xFFF ≠ 0 then none
  else if s.pmm.physToVirtOk (phys &&& pteAddrMask).toNat then
    some ((phys &&& pteAddrMask).toNat / pageSize) else none

def setWord (s : Paging) (f i : ℕ) (e : UInt64) : Paging :=
  { s with words := update s.words f (update (s.words f) i e) }

def newUserTable (s : Paging) (parent i : ℕ) : Paging × Option ℕ :=
  match s.pmm.pmmAllocPage with
  | (pmm, none) => ({ s with pmm := pmm }, none)
  | (pmm, some f) =>
    let s := { s with pmm := pmm }
    let phys := UInt64.ofNat (f * pageSize)
    match s.table phys with
    | none => ({ s with pmm := s.pmm.pmmFreePage (f * pageSize) }, none)
    | some t =>
      let s := { s with words := update s.words t (fun _ ↦ 0) }
      (s.setWord parent i (phys &&& pteAddrMask ||| pteP ||| pteW ||| pteU), some t)

def ensureUserChild (s : Paging) (parent i : ℕ) : Paging × Option ℕ :=
  let e := s.words parent i
  if e &&& pteP = 0 ∨ e &&& ptePs ≠ 0 then s.newUserTable parent i
  else
    match s.table (e &&& pteAddrMask) with
    | none => s.newUserTable parent i
    | some child =>
      if e &&& (pteW ||| pteU) ≠ pteW ||| pteU then
        (s.setWord parent i (e &&& pteAddrMask ||| pteP ||| pteW ||| pteU), some child)
      else (s, some child)

def vmmUserMap (s : Paging) (virt : ℕ) (phys flags : UInt64) : Paging × Int :=
  match s.user with
  | none => (s, -1)
  | some root =>
    if canonicalUser virt = false ∨ virt % pageSize ≠ 0 ∨ phys &&& 0xFFF ≠ 0 then (s, -1)
    else
      match s.table root with
      | none => (s, -1)
      | some pml4 =>
        match s.ensureUserChild pml4 (idx 3 virt) with
        | (s, none) => (s, -1)
        | (s, some pdpt) =>
          match s.ensureUserChild pdpt (idx 2 virt) with
          | (s, none) => (s, -1)
          | (s, some pd) =>
            match s.ensureUserChild pd (idx 1 virt) with
            | (s, none) => (s, -1)
            | (s, some pt) =>
              (s.setWord pt (idx 0 virt)
                (phys &&& pteAddrMask ||| pteP ||| pteU ||| flags &&&
                  (pteW ||| pteNx ||| ptePwt ||| ptePcd)), 0)

def vmmCr3TranslateDirect (s : Paging) (cr3 : UInt64) (va : ℕ) : Option (UInt64 × UInt64) :=
  if cr3 = 0 ∨ cr3 &&& 0xFFF ≠ 0 ∨ canonicalUser va = false then none
  else do
    let pml4 ← s.table cr3
    let e4 := s.words pml4 (idx 3 va)
    if e4 &&& pteP = 0 ∨ e4 &&& ptePs ≠ 0 then none
    else
      let pdpt ← s.table (e4 &&& pteAddrMask)
      let e3 := s.words pdpt (idx 2 va)
      if e3 &&& pteP = 0 ∨ e3 &&& ptePs ≠ 0 then none
      else
        let pd ← s.table (e3 &&& pteAddrMask)
        let e2 := s.words pd (idx 1 va)
        if e2 &&& pteP = 0 ∨ e2 &&& ptePs ≠ 0 then none
        else
          let pt ← s.table (e2 &&& pteAddrMask)
          let pte := s.words pt (idx 0 va)
          if pte &&& pteP = 0 then none
          else some (pte &&& pteAddrMask ||| UInt64.ofNat (va % pageSize), pte)

def vmmUserTranslateCr3 (s : Paging) (cr3 : UInt64) (virt : ℕ) : Option (UInt64 × UInt64) :=
  s.vmmCr3TranslateDirect (cr3 &&& ~~~0xFFF) virt

def vmmUserTranslate (s : Paging) (virt : ℕ) : Option (UInt64 × UInt64) :=
  match s.user with
  | none => none
  | some root =>
    if canonicalUser virt = false then none
    else do
      let pml4 ← s.table root
      let e4 := s.words pml4 (idx 3 virt)
      if e4 &&& pteP = 0 ∨ e4 &&& ptePs ≠ 0 then none
      else
        let pdpt ← s.table (e4 &&& pteAddrMask)
        let e3 := s.words pdpt (idx 2 virt)
        if e3 &&& pteP = 0 ∨ e3 &&& ptePs ≠ 0 then none
        else
          let pd ← s.table (e3 &&& pteAddrMask)
          let e2 := s.words pd (idx 1 virt)
          if e2 &&& pteP = 0 ∨ e2 &&& ptePs ≠ 0 then none
          else
            let pt ← s.table (e2 &&& pteAddrMask)
            let pte := s.words pt (idx 0 virt)
            if pte &&& pteP = 0 then none
            else some (pte &&& pteAddrMask ||| UInt64.ofNat (virt % pageSize), pte)

def cowWalk (s : Paging) (cr3 : UInt64) (virt : ℕ) : Option (ℕ × ℕ) :=
  if virt % pageSize ≠ 0 ∨ userTop ≤ virt then none
  else do
    let pml4 ← s.table (cr3 &&& ~~~0xFFF)
    let e4 := s.words pml4 (idx 3 virt)
    if e4 &&& pteP = 0 ∨ e4 &&& ptePs ≠ 0 then none
    else
      let pdpt ← s.table (e4 &&& pteAddrMask)
      let e3 := s.words pdpt (idx 2 virt)
      if e3 &&& pteP = 0 ∨ e3 &&& ptePs ≠ 0 then none
      else
        let pd ← s.table (e3 &&& pteAddrMask)
        let e2 := s.words pd (idx 1 virt)
        if e2 &&& pteP = 0 ∨ e2 &&& ptePs ≠ 0 then none
        else
          let pt ← s.table (e2 &&& pteAddrMask)
          some (pt, idx 0 virt)

/-- The frame that the page had; `none` is the source's `-1`. -/
def vmmUserUnmap (s : Paging) (virt : ℕ) : Paging × Option UInt64 :=
  match s.user with
  | none => (s, none)
  | some root =>
    if canonicalUser virt = false ∨ virt % pageSize ≠ 0 then (s, none)
    else
      let leaf := do
        let pml4 ← s.table root
        let e4 := s.words pml4 (idx 3 virt)
        if e4 &&& pteP = 0 ∨ e4 &&& ptePs ≠ 0 then none
        else
          let pdpt ← s.table (e4 &&& pteAddrMask)
          let e3 := s.words pdpt (idx 2 virt)
          if e3 &&& pteP = 0 ∨ e3 &&& ptePs ≠ 0 then none
          else
            let pd ← s.table (e3 &&& pteAddrMask)
            let e2 := s.words pd (idx 1 virt)
            if e2 &&& pteP = 0 ∨ e2 &&& ptePs ≠ 0 then none
            else s.table (e2 &&& pteAddrMask)
      match leaf with
      | none => (s, none)
      | some pt =>
        let e := s.words pt (idx 0 virt)
        if e &&& pteP = 0 then (s, none) else (s.setWord pt (idx 0 virt) 0, some (e &&& pteAddrMask))

end Paging

end YabroOS.Memory
