import YabroOS.Memory.Pmm
import Mathlib.Order.Interval.Finset.Nat
import Mathlib.Data.Finset.Card

namespace YabroOS.Memory

open Function

def maxRegions : ℕ := 64
def maxReservedPages : ℕ := 65536
def maxPageTables : ℕ := 65536
def pageTableHashSize : ℕ := 131072
def limineMemmapUsable : UInt64 := 0
def pteAddrMask : UInt64 := 0x000FFFFFFFFFF000

structure LimineMemmapEntry where
  base : UInt64
  length : UInt64
  type : UInt64

/-- The memory map as the boot loader hands it over: a table of pointers, each of which may be null.
-/
abbrev Memmap := List (Option LimineMemmapEntry)

/-- The allocator with the variables that only `pmm_init` and reservations use; `reservedPages` is
the filled part of `reserved_pages`. -/
structure PmmState extends Pmm where
  reservedPages : List ℕ
  totalPages : ℕ

namespace Pmm

def alignUp (x : ℕ) : ℕ := pageOf ((x + pageSize - 1) % 2 ^ 64)

def pmmAllocZeroed (s : Pmm) : Pmm × Option ℕ :=
  match s.pmmAllocPage with
  | (s, none) => (s, none)
  | (s, some f) =>
    if s.physToVirtOk (f * pageSize) then (s, some f) else (s.pmmFreePage (f * pageSize), none)

def framesOf : List PmmRegion → Finset ℕ
  | [] => ∅
  | r :: rs => Finset.Ico r.base r.limit ∪ framesOf rs

def frames (s : Pmm) : Finset ℕ := framesOf s.regions

end Pmm

structure SeenPageTables where
  slots : ℕ → ℕ
  count : ℕ

namespace SeenPageTables

def hash (phys : ℕ) : ℕ := phys / pageSize * 11400714819323198485 % 2 ^ 64 % pageTableHashSize

def probe (t : SeenPageTables) (phys : ℕ) : ℕ → ℕ → SeenPageTables × Bool
  | 0, _ => (t, true)
  | n + 1, slot =>
    if t.slots slot = phys then (t, true)
    else if t.slots slot = 0 then (⟨update t.slots slot phys, t.count + 1⟩, false)
    else t.probe phys n ((slot + 1) % pageTableHashSize)

def pageTableSeen (t : SeenPageTables) (phys : ℕ) : SeenPageTables × Bool :=
  if maxPageTables ≤ t.count then (t, true) else t.probe phys pageTableHashSize (hash phys)

end SeenPageTables

def LimineMemmapEntry.region (e : LimineMemmapEntry) : Option PmmRegion :=
  if e.type ≠ limineMemmapUsable ∨ e.length.toNat < pageSize then none
  else
    let limit := (e.base.toNat + e.length.toNat) % 2 ^ 64
    if limit < e.base.toNat then none
    else
      let start := max (Pmm.alignUp e.base.toNat) pmmMinPhys
      let limit := min (Pmm.pageOf limit) pmmTrackLimit
      if limit ≤ start then none
      else some ⟨start / pageSize, limit / pageSize, start / pageSize⟩

def physIsDescribed (entries : Memmap) (phys : ℕ) : Bool :=
  entries.any (fun e ↦ e.any (fun e ↦ e.length ≠ 0 ∧ e.base.toNat ≤ 2 ^ 64 - 1 - e.length.toNat ∧
    e.base.toNat ≤ phys ∧ phys - e.base.toNat < e.length.toNat))

namespace PmmState

variable (s : PmmState)

def setReserved (phys : ℕ) : PmmState :=
  if Pmm.tracked phys then { s with reservedState := update s.reservedState (phys / pageSize) true }
  else s

def setAllocated (phys : ℕ) : PmmState :=
  if Pmm.tracked phys then { s with pageState := update s.pageState (phys / pageSize) true } else s

def reservePage (addr : ℕ) : PmmState × Bool :=
  let phys := Pmm.pageOf addr
  if phys = 0 ∨ 2 ^ 52 ≤ phys then (s, false)
  else if s.isReserved phys then (s, false)
  else if maxReservedPages ≤ s.reservedPages.length then (s, false)
  else
    let s := { s with reservedPages := s.reservedPages ++ [phys] }.setReserved phys
    if s.ready ∧ s.inRegion phys ∧ s.pageIsAllocated phys = false then
      ({ s.setAllocated phys with freePages := s.freePages - 1 }, true)
    else (s, true)

def reservePages (start limit : ℕ) : PmmState :=
  (List.range ((limit - start) / pageSize)).foldl
    (fun s i ↦ (s.reservePage (start + i * pageSize)).1) s

def pmmReserveRange (base length : ℕ) : PmmState :=
  if length = 0 then s
  else
    let start := Pmm.pageOf base
    let limit := Pmm.alignUp ((base + length) % 2 ^ 64)
    if limit < base then s else s.reservePages start limit

def reservePageTableTree (mem : ℕ → ℕ → UInt64) (entries : Memmap) :
    ℕ → ℕ → PmmState × SeenPageTables → PmmState × SeenPageTables
  | 0, _, st => st
  | level + 1, tablePhys, (s, t) =>
    let phys := Pmm.pageOf tablePhys
    if phys = 0 ∨ pteAddrMask.toNat < phys then (s, t)
    else if physIsDescribed entries phys = false then (s, t)
    else
      match t.pageTableSeen phys with
      | (t, true) => (s, t)
      | (t, false) =>
        let s := (s.reservePage phys).1
        if s.physToVirtOk phys = false then (s, t)
        else
          (List.range 512).foldl (fun st i ↦
            let e := mem phys i
            if e &&& 1 = 0 ∨ level = 0 then st
            else if (level = 2 ∨ level = 1) ∧ e &&& 0x80 ≠ 0 then st
            else
              let child := (e &&& pteAddrMask).toNat
              if child ≠ 0 ∧ physIsDescribed entries child then
                reservePageTableTree mem entries level child st
              else st) (s, t)

def reserveActivePageTables (mem : ℕ → ℕ → UInt64) (entries : Memmap) (cr3 : ℕ) : PmmState :=
  (reservePageTableTree mem entries 4 cr3 (s, ⟨fun _ ↦ 0, 0⟩)).1

def addRegion (e : Option LimineMemmapEntry) : PmmState :=
  if maxRegions ≤ s.regions.length then s
  else
    match e.bind LimineMemmapEntry.region with
    | none => s
    | some r =>
      { s with
        regions := s.regions ++ [r]
        freePages := s.freePages + (r.limit - r.base)
        totalPages := s.totalPages + (r.limit - r.base) }

def withdraw (rp : ℕ) : PmmState :=
  let s := s.setAllocated rp
  if s.inRegion rp then { s with freePages := s.freePages - 1 } else s

def reserveKernel (kernelBase kernelEnd : ℕ) : PmmState :=
  let kbase := Pmm.pageOf kernelBase
  let kend := Pmm.alignUp kernelEnd
  if kbase < kend ∧ kend - kbase < 2 ^ 40 then s.reservePages kbase kend else s

def zero (hhdm : ℕ) : PmmState where
  regions := []
  hhdm := hhdm
  freePages := 0
  pageState := fun _ ↦ false
  reservedState := fun _ ↦ false
  pageRefs := fun _ ↦ 0
  ready := false
  reservedPages := []
  totalPages := 0

/-- `none` for `entries` is a null table; `cr3` and `mem` are what the processor and the page tables
of the boot loader hold. -/
def pmmInit (entries : Option Memmap) (hhdm kernelBase kernelEnd cr3 : UInt64)
    (mem : ℕ → ℕ → UInt64) : PmmState :=
  match entries with
  | none => zero hhdm.toNat
  | some entries =>
    if hhdm = 0 then zero hhdm.toNat
    else
      let s := entries.foldl addRegion (zero hhdm.toNat)
      let s := s.reserveKernel kernelBase.toNat kernelEnd.toNat
      let s := s.reserveActivePageTables mem entries cr3.toNat
      let s := s.reservedPages.foldl withdraw s
      { s with ready := s.regions ≠ [] }

end PmmState

inductive PmmOp
  | reserveRange (base length : UInt64)
  | allocPage
  | allocZeroed
  | freePage (phys : UInt64)
  | retainPage (phys : UInt64)

inductive PmmResult
  | done
  | page (f : Option ℕ)
  | retained (ok : Bool)
  deriving DecidableEq

namespace PmmState

def exec (s : PmmState) : PmmOp → PmmState × PmmResult
  | .reserveRange base length => (s.pmmReserveRange base.toNat length.toNat, .done)
  | .allocPage => ({ s with toPmm := s.toPmm.pmmAllocPage.1 }, .page s.toPmm.pmmAllocPage.2)
  | .allocZeroed => ({ s with toPmm := s.toPmm.pmmAllocZeroed.1 }, .page s.toPmm.pmmAllocZeroed.2)
  | .freePage phys => ({ s with toPmm := s.toPmm.pmmFreePage phys.toNat }, .done)
  | .retainPage phys =>
    match s.toPmm.pmmRetainPage phys.toNat with
    | none => (s, .retained false)
    | some p => ({ s with toPmm := p }, .retained true)

def run (s : PmmState) (l : List PmmOp) : PmmState := l.foldl (fun s op ↦ (s.exec op).1) s

end PmmState

end YabroOS.Memory
