import YabroOS.Memory.PageTable

namespace YabroOS.Memory

open Lib

variable {α : Type}

namespace Tab

def destroyCloneLevel : (n : ℕ) → Pmm → ℕ → Tab n → Pmm
  | 0, s, frame, _ => if s.table frame then s.pmmFreePage (frame * pageSize) else s
  | n + 1, s, frame, t =>
    if s.table frame then
      ((Slots.list t).foldl (fun s p ↦
        match p.2 with
        | .huge _ _ => s
        | .next _ f c => destroyCloneLevel n s f c) s).pmmFreePage (frame * pageSize)
    else s

def cloneTable (s : Pmm) (src : ℕ) : Pmm × Option ℕ :=
  match s.allocTable with
  | (s, none) => (s, none)
  | (s, some f) => if s.table src then (s, some f) else (s.pmmFreePage (f * pageSize), none)

def cloneLeaves : Slots Pte → List (ℕ × Pte) → Slots Pte × Option Int
  | dst, [] => (dst, none)
  | dst, (i, e) :: l => if e.ps then (dst, some (-2)) else cloneLeaves (dst.set i e) l

def cloneLoop (clone : Pmm → ℕ → α → Pmm × Except Int (ℕ × α)) :
    Pmm → Slots (Entry α) → List (ℕ × Entry α) → Pmm × Slots (Entry α) × Option Int
  | s, dst, [] => (s, dst, none)
  | s, dst, (_, .huge _ _) :: _ => (s, dst, some (-2))
  | s, dst, (i, .next fl f c) :: l =>
    match clone s f c with
    | (s, .error err) => (s, dst, some err)
    | (s, .ok (np, c')) => cloneLoop clone s (dst.set i (.next fl np c')) l

def cloneUserTables : (n : ℕ) → Pmm → ℕ → Tab n → Pmm × Except Int (ℕ × Tab n)
  | 0, s, srcPhys, src =>
    match cloneTable s srcPhys with
    | (s, none) => (s, .error (-1))
    | (s, some dstPhys) =>
      match cloneLeaves Slots.empty (Slots.list src) with
      | (dst, some err) => (destroyCloneLevel 0 s dstPhys dst, .error err)
      | (dst, none) => (s, .ok (dstPhys, dst))
  | n + 1, s, srcPhys, src =>
    match cloneTable s srcPhys with
    | (s, none) => (s, .error (-1))
    | (s, some dstPhys) =>
      match cloneLoop (cloneUserTables n) s Slots.empty (Slots.list src) with
      | (s, dst, some err) => (destroyCloneLevel (n + 1) s dstPhys dst, .error err)
      | (s, dst, none) => (s, .ok (dstPhys, dst))

def preflightPages : Pmm → List (ℕ × Pte) → Pmm × Int
  | s, [] => (s, 0)
  | s, (_, e) :: l =>
    if e.ps then (s, -2)
    else if e.frame = 0 then (s, -1)
    else if s.pmmPageIsReserved (e.frame * pageSize) then preflightPages s l
    else
      match s.pmmRetainPage (e.frame * pageSize) with
      | none => (s, -1)
      | some s => preflightPages (s.pmmFreePage (e.frame * pageSize)) l

def preflightLoop (preflight : Pmm → ℕ → α → Pmm × Int) : Pmm → List (ℕ × Entry α) → Pmm × Int
  | s, [] => (s, 0)
  | s, (_, .huge _ _) :: _ => (s, -2)
  | s, (_, .next _ f c) :: l =>
    let (s, rc) := preflight s f c
    if rc ≠ 0 then (s, -1) else preflightLoop preflight s l

def preflightForkPages : (n : ℕ) → Pmm → ℕ → Tab n → Pmm × Int
  | 0, s, srcPhys, src => if s.table srcPhys then preflightPages s (Slots.list src) else (s, -1)
  | n + 1, s, srcPhys, src =>
    if s.table srcPhys then preflightLoop (preflightForkPages n) s (Slots.list src) else (s, -1)

def applyPages : Pmm → Slots Pte → Slots Pte → List (ℕ × Pte) → Pmm × Slots Pte × Slots Pte × Int
  | s, src, dst, [] => (s, src, dst, 0)
  | s, src, dst, (i, e) :: l =>
    if e.ps then (s, src, dst, -2)
    else if e.frame = 0 then (s, src, dst, -1)
    else if s.pmmPageIsReserved (e.frame * pageSize) then applyPages s src (dst.set i e) l
    else
      match s.pmmRetainPage (e.frame * pageSize) with
      | none => (s, src, dst, -1)
      | some s =>
        if e.w then
          let cow := { e with w := false, cow := true }
          applyPages s (src.set i cow) (dst.set i cow) l
        else applyPages s src (dst.set i e) l

/-- A child of the copy that is not a table is never met: `cloneLoop` makes only tables. -/
def applyLoop (apply : Pmm → ℕ → α → ℕ → α → Pmm × α × α × Int) :
    Pmm → Slots (Entry α) → Slots (Entry α) → List (ℕ × Entry α) →
      Pmm × Slots (Entry α) × Slots (Entry α) × Int
  | s, src, dst, [] => (s, src, dst, 0)
  | s, src, dst, (_, .huge _ _) :: _ => (s, src, dst, -2)
  | s, src, dst, (i, .next fl f c) :: l =>
    match dst.get? i with
    | some (.next fl' np d) =>
      if np = 0 then (s, src, dst, -1)
      else
        let (s, c', d', rc) := apply s f c np d
        let src := src.set i (.next fl f c')
        let dst := dst.set i (.next fl' np d')
        if rc ≠ 0 then (s, src, dst, -1) else applyLoop apply s src dst l
    | _ => (s, src, dst, -1)

def applyForkCow : (n : ℕ) → Pmm → ℕ → Tab n → ℕ → Tab n → Pmm × Tab n × Tab n × Int
  | 0, s, srcPhys, src, dstPhys, dst =>
    if s.table srcPhys ∧ s.table dstPhys then applyPages s src dst (Slots.list src)
    else (s, src, dst, -1)
  | n + 1, s, srcPhys, src, dstPhys, dst =>
    if s.table srcPhys ∧ s.table dstPhys then applyLoop (applyForkCow n) s src dst (Slots.list src)
    else (s, src, dst, -1)

def destroyUserLevel (fb : ℕ → Bool) : (n : ℕ) → Pmm → ℕ → Tab n → Pmm
  | 0, s, frame, t =>
    if s.table frame then
      (Slots.list t).foldl (fun s p ↦
        if fb p.2.frame then s else s.pmmFreePage (p.2.frame * pageSize)) s
    else s
  | n + 1, s, frame, t =>
    if s.table frame then
      (Slots.list t).foldl (fun s p ↦
        match p.2 with
        | .huge _ _ => s
        | .next _ f c => (destroyUserLevel fb n s f c).pmmFreePage (f * pageSize)) s
    else s

end Tab

end YabroOS.Memory
