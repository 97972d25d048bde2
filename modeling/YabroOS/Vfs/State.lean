import YabroOS.Fat.Image

namespace YabroOS.Vfs

open Fat Function

inductive NodeType
  | dir | file | procFile | symlink | devNull | devZero | devConsole | devTty | devRandom
  | devUrandom | devFb
  | sysFile | bootFile | devInput | devInputMouse | socket
  deriving DecidableEq

/-- Where the bytes of a file are: a slot of the pool, or the static buffer for the log of Xorg. -/
inductive Buf
  | slot (i : ℕ)
  | xorg
  deriving DecidableEq

/-- `struct vfs_node`; a node is known by its place in the array. The children are the list that
`children` and `next` thread through the nodes, and `mounted` is the root of the mount. -/
structure Node where
  name : List UInt8
  ino : ℕ
  mode : ℕ
  type : NodeType
  parent : Option ℕ
  children : List ℕ
  mounted : Option ℕ
  linkTarget : List UInt8
  bootPath : List UInt8
  data : Option Buf
  size : ℕ
  capacity : ℕ
  nlink : ℕ
  owner : ℕ
  deriving DecidableEq

def vfsMaxNodes : ℕ := 16384
def vfsNameMax : ℕ := 31
def vfsDataSlots : ℕ := 64
def vfsDataSlotSize : ℕ := 64 * 1024
def vfsXorgLogCap : ℕ := 64 * 1024
def sIfdir : ℕ := 0o40000
def sIfreg : ℕ := 0o100000
def sIflnk : ℕ := 0o120000
def sIfsock : ℕ := 0o140000

def slash : UInt8 := 47
def dot : List UInt8 := [46]
def dotdot : List UInt8 := [46, 46]

/-- The statics of `vfs.c`. -/
structure Fs where
  nodes : ℕ → Node
  used : ℕ
  nextIno : ℕ
  dataUsed : ℕ → Bool
  bytes : Buf → ℕ → UInt8

def root : ℕ := 0

def asciiLower (c : UInt8) : UInt8 := if 65 ≤ c ∧ c ≤ 90 then c + 32 else c

def lower (name : List UInt8) : List UInt8 := name.map asciiLower

def eqDirName (a b : List UInt8) : Bool := lower a = lower b

def blank : Node := ⟨[], 0, 0, .dir, none, [], none, [], [], none, 0, 0, 0, 0⟩

namespace Fs

variable (s : Fs)

def setNode (x : ℕ) (n : Node) : Fs := { s with nodes := update s.nodes x n }

def newNode (name : List UInt8) (type : NodeType) (mode : ℕ) : Option (Fs × ℕ) :=
  if vfsMaxNodes ≤ s.used then none
  else
    let n : Node :=
      ⟨name.take vfsNameMax, s.nextIno, mode, type, none, [], none, [], [], none, 0, 0, 1, s.used⟩
    some ({ s with nodes := update s.nodes s.used n, used := s.used + 1, nextIno := s.nextIno + 1 },
      s.used)

def vfsAllocFileData : Option (Fs × Buf) :=
  match (List.range vfsDataSlots).find? (fun i ↦ s.dataUsed i = false) with
  | none => none
  | some i =>
    some ({ s with
      dataUsed := update s.dataUsed i true
      bytes := update s.bytes (.slot i) (fun _ ↦ 0) }, .slot i)

def vfsFreeFileData (x : ℕ) : Fs :=
  match (s.nodes x).data with
  | some (.slot i) =>
    { s.setNode x { s.nodes x with data := none, capacity := 0 } with
      dataUsed := update s.dataUsed i false }
  | _ => s

def vfsDropLink (x : ℕ) : Fs :=
  let o := (s.nodes x).owner
  let s := s.setNode o { s.nodes o with nlink := (s.nodes o).nlink - 1 }
  if (s.nodes o).nlink = 0 then (s.setNode o { s.nodes o with size := 0 }).vfsFreeFileData o else s

def add (p x : ℕ) : Fs :=
  let s := s.setNode x { s.nodes x with parent := some p }
  s.setNode p { s.nodes p with children := x :: (s.nodes p).children }

def detach (p x : ℕ) : Fs := s.setNode p { s.nodes p with children := (s.nodes p).children.erase x }

def usr : List UInt8 := [117, 115, 114]
def lib : List UInt8 := [108, 105, 98]

def vfsLookupChild (d : ℕ) (name : List UInt8) : Fs × Option ℕ :=
  if (s.nodes d).type ≠ .dir then (s, none)
  else
    match (s.nodes d).children.find? (fun x ↦ (s.nodes x).name = name) with
    | some x => (s, some x)
    | none =>
      match (s.nodes d).children.find? (fun x ↦ (s.nodes x).type = .dir ∧
        eqDirName (s.nodes x).name name) with
      | none => (s, none)
      | some x =>
        if (s.nodes x).parent = some root ∧
            ((eqDirName name usr ∧ eqDirName (s.nodes x).name usr) ∨
              (eqDirName name lib ∧ eqDirName (s.nodes x).name lib)) then
          (s.setNode x { s.nodes x with name := name.take vfsNameMax }, some x)
        else (s, some x)

def mr (x : ℕ) : ℕ := (s.nodes x).mounted.getD x

def up (cur : ℕ) : ℕ :=
  match (s.nodes cur).parent with
  | none => cur
  | some p => if (s.nodes p).mounted = some cur then (s.nodes p).parent.getD p else p

def walk (s : Fs) : ℕ → List (List UInt8) → Fs × Option ℕ
  | cur, [] => (s, some cur)
  | cur, part :: rest =>
    if part.take vfsNameMax = dot then walk s cur rest
    else if part.take vfsNameMax = dotdot then walk s (s.up cur) rest
    else
      match s.vfsLookupChild (s.mr cur) (part.take vfsNameMax) with
      | (s, none) => (s, none)
      | (s, some x) => walk s (s.mr x) rest

def vfsLookup (path : List UInt8) : Fs × Option ℕ :=
  if path.head? ≠ some slash then (s, none) else s.walk root (components path)

def splitPath (path : List UInt8) : Option (List UInt8 × List UInt8) :=
  if path.head? ≠ some slash ∨ path.length < 2 ∨ 260 ≤ path.length then none
  else
    let path := path.rdropWhile (· = slash)
    let name := path.rtakeWhile (· ≠ slash)
    let parent := path.rdropWhile (· ≠ slash)
    if name = [] ∨ vfsNameMax < name.length then none
    else some (if parent.length = 1 then [slash] else parent.dropLast, name)

def vfsParentForCreate (path : List UInt8) : Fs × Option (ℕ × List UInt8) :=
  match splitPath path with
  | none => (s, none)
  | some (parent, name) =>
    match s.vfsLookup parent with
    | (s, none) => (s, none)
    | (s, some p) => (s, some (p, name))

def isType (x : ℕ) (t : NodeType) : Bool := (s.nodes x).type = t

def xorgLogPath : List UInt8 :=
  [47, 118, 97, 114, 47, 108, 111, 103, 47, 88, 111, 114, 103, 46, 48, 46, 108, 111, 103]

def fileData (path : List UInt8) (x : ℕ) : Option Fs :=
  if path = xorgLogPath then
    some (s.setNode x { s.nodes x with data := some .xorg, capacity := vfsXorgLogCap })
  else
    match s.vfsAllocFileData with
    | none => none
    | some (s, b) =>
      some (s.setNode x { s.nodes x with data := some b, capacity := vfsDataSlotSize })

def vfsCreateFile (path : List UInt8) (truncate : Bool) : Fs × Option ℕ :=
  match s.vfsLookup path with
  | (s, some x) =>
    if s.isType x .file then
      let o := (s.nodes x).owner
      let s := if truncate then s.setNode o { s.nodes o with size := 0 } else s
      (s.setNode x { s.nodes x with size := (s.nodes o).size }, some x)
    else (s, none)
  | (s, none) =>
    match s.vfsParentForCreate path with
    | (s, none) => (s, none)
    | (s, some (p, name)) =>
      if s.isType p .dir = false then (s, none)
      else
        match s.newNode name .file (sIfreg + 0o666) with
        | none => (s, none)
        | some (s, x) =>
          match s.fileData path x with
          | none => ({ s with used := s.used - 1 }, none)
          | some s => (s.add p x, some x)

def canonicalizeSystemPath (path : List UInt8) : List UInt8 :=
  if path.head? ≠ some slash then []
  else (slash :: [slash].intercalate ((components path).map (·.take vfsNameMax))).take 259

def makeNode (path : List UInt8) (type : NodeType) (mode : ℕ) : Fs × Option ℕ :=
  if path.head? ≠ some slash ∨ path.length = 1 then (s, none)
  else
    match s.vfsLookup (canonicalizeSystemPath path) with
    | (s, some _) => (s, none)
    | (s, none) =>
      match s.vfsParentForCreate (canonicalizeSystemPath path) with
      | (s, none) => (s, none)
      | (s, some (p, name)) =>
        if s.isType p .dir = false then (s, none)
        else
          match s.newNode name type mode with
          | none => (s, none)
          | some (s, x) => (s.add p x, some x)

def vfsCreateSocket (path : List UInt8) (mode : ℕ) : Fs × Option ℕ :=
  s.makeNode path .socket (sIfsock + mode % 0o1000)

def vfsMkdir (path : List UInt8) (mode : ℕ) : Fs × Option ℕ :=
  s.makeNode path .dir (sIfdir + mode % 0o1000)

def vfsLink (old new : List UInt8) : Fs × ℤ :=
  match s.vfsLookup old with
  | (s, none) => (s, -1)
  | (s, some src) =>
    if src = root ∨ (s.nodes src).mounted.isSome ∨ s.isType src .file = false then (s, -1)
    else
      match s.vfsParentForCreate new with
      | (s, none) => (s, -1)
      | (s, some (p, name)) =>
        if s.isType p .dir = false then (s, -1)
        else
          match s.vfsLookup new with
          | (s, some _) => (s, -2)
          | (s, none) =>
            let o := (s.nodes src).owner
            match s.newNode name .file (s.nodes src).mode with
            | none => (s, -3)
            | some (s, x) =>
              let n := s.nodes o
              let s := s.setNode o { n with nlink := n.nlink + 1 }
              let s := s.setNode x { s.nodes x with
                ino := n.ino, owner := o, nlink := 0, data := n.data, size := n.size, capacity :=
                  n.capacity }
              (s.add p x, 0)

def vfsUnlink (path : List UInt8) : Fs × ℤ :=
  match s.vfsLookup path with
  | (s, none) => (s, -1)
  | (s, some x) =>
    if x = root ∨ s.isType x .dir ∨ (s.nodes x).mounted.isSome then (s, -1)
    else
      match (s.nodes x).parent with
      | none => (s, -1)
      | some p =>
        if s.isType p .dir = false ∨ x ∉ (s.nodes p).children then (s, -1)
        else
          let s := s.detach p x
          ((s.setNode x { s.nodes x with parent := none }).vfsDropLink x, 0)

def vfsRmdir (path : List UInt8) : Fs × ℤ :=
  match s.vfsLookup path with
  | (s, none) => (s, -1)
  | (s, some x) =>
    if x = root ∨ s.isType x .dir = false ∨ (s.nodes x).mounted.isSome then (s, -1)
    else if (s.nodes x).children ≠ [] then (s, -2)
    else
      match (s.nodes x).parent with
      | none => (s, -1)
      | some p =>
        if s.isType p .dir = false ∨ x ∉ (s.nodes p).children then (s, -1)
        else
          let s := s.detach p x
          (s.setNode x { s.nodes x with parent := none }, 0)

/-- The loop of `vfs_is_ancestor` along the parents, which has no more rounds than there are nodes.
-/
def ancestorLoop (a : ℕ) : ℕ → Option ℕ → Bool
  | 0, _ => false
  | _ + 1, none => false
  | k + 1, some x => x = a ∨ ancestorLoop a k (s.nodes x).parent

def vfsIsAncestor (a x : ℕ) : Bool := s.ancestorLoop a (s.used + 1) (some x)

def dropExisting (e : ℕ) : Option Fs :=
  if (s.nodes e).mounted.isSome ∨ s.isType e .dir then none
  else
    match (s.nodes e).parent with
    | none => none
    | some ep =>
      if e ∉ (s.nodes ep).children then none
      else
        let s := s.detach ep e
        some ((s.setNode e { s.nodes e with parent := none }).vfsDropLink e)

def moveNode (x p : ℕ) (name : List UInt8) : Fs :=
  let s := match (s.nodes x).parent with
    | none => s
    | some op => s.detach op x
  (s.setNode x { s.nodes x with name := name }).add p x

def vfsRename (old new : List UInt8) : Fs × ℤ :=
  match s.vfsLookup old with
  | (s, none) => (s, -1)
  | (s, some x) =>
    if x = root ∨ (s.nodes x).mounted.isSome then (s, -1)
    else
      match s.vfsParentForCreate new with
      | (s, none) => (s, -1)
      | (s, some (p, name)) =>
        if s.isType p .dir = false then (s, -1)
        else if s.isType x .dir ∧ s.vfsIsAncestor x p then (s, -1)
        else
          match s.vfsLookup new with
          | (s, none) => (s.moveNode x p name, 0)
          | (s, some e) =>
            if e = x then (s, 0)
            else
              match s.dropExisting e with
              | none => (s, -1)
              | some s => (s.moveNode x p name, 0)

def ensureLoop (s : Fs) : List (List UInt8) → List UInt8 → Fs × Bool
  | [], _ => (s, true)
  | part :: rest, cur =>
    if vfsNameMax < part.length then (s, false)
    else
      let cur := if 1 < cur.length then cur ++ [slash] else cur
      if 260 ≤ cur.length + part.length then (s, false)
      else
        let cur := cur ++ part
        match s.vfsLookup cur with
        | (s, some x) => if s.isType x .dir then ensureLoop s rest cur else (s, false)
        | (s, none) =>
          match s.vfsMkdir cur 0o755 with
          | (s, some _) => ensureLoop s rest cur
          | (s, none) =>
            match s.vfsLookup cur with
            | (s, some _) => ensureLoop s rest cur
            | (s, none) => (s, false)

def vfsEnsureDir (path : List UInt8) : Fs × ℤ :=
  if path.head? ≠ some slash then (s, -1)
  else if path.length = 1 then (s, 0)
  else
    match s.ensureLoop (components path) [slash] with
    | (s, false) => (s, -1)
    | (s, true) =>
      match s.vfsLookup path with
      | (s, none) => (s, -1)
      | (s, some x) => (s, if s.isType x .dir then 0 else -1)

def importLoop (path : List UInt8) (size : ℕ) (s : Fs) : ℕ → List (List UInt8) → Fs × ℤ
  | _, [] => (s, -1)
  | parent, part :: rest =>
    match s.vfsLookupChild parent (part.take vfsNameMax) with
    | (s, child) =>
      if rest ≠ [] then
        match child with
        | some x => if s.isType x .dir then importLoop path size s x rest else (s, -1)
        | none =>
          match s.newNode (part.take vfsNameMax) .dir (sIfdir + 0o755) with
          | none => (s, -1)
          | some (s, x) => importLoop path size (s.add parent x) x rest
      else
        match child with
        | some x =>
          if s.isType x .bootFile then
            (s.setNode x
              { s.nodes x with size := size, capacity := size, bootPath := path.take 259 }, 0)
          else (s, -1)
        | none =>
          match s.newNode (part.take vfsNameMax) .bootFile (sIfreg + 0o444) with
          | none => (s, -1)
          | some (s, x) =>
            let s := s.setNode x
              { s.nodes x with size := size, capacity := size, bootPath := path.take 259 }
            (s.add parent x, 0)

def vfsImportBootFile (path : List UInt8) (size : ℕ) : Fs × ℤ :=
  if path = [] ∨ size = 0 then (s, -1) else importLoop path size s root (components path)

def vfsFileIsRegular (x : ℕ) : Bool := s.isType x .file

def vfsFileData (x : ℕ) : Option Buf :=
  if s.vfsFileIsRegular x then (s.nodes (s.nodes x).owner).data else none

def vfsFileSize (x : ℕ) : ℕ :=
  if s.vfsFileIsRegular x then (s.nodes (s.nodes x).owner).size else if s.isType x .bootFile then
    (s.nodes x).size else 0

def store (b : Option Buf) (off : ℕ) (src : List UInt8) : Fs :=
  match b with
  | none => s
  | some b =>
    { s with bytes := update s.bytes b (fun o ↦
      if off ≤ o ∧ o < off + src.length then src.getD (o - off) 0 else s.bytes b o) }

def vfsFileTruncate (x len : ℕ) : Fs × ℤ :=
  if s.vfsFileIsRegular x = false then (s, -1)
  else
    let o := (s.nodes x).owner
    if (s.nodes o).capacity < len then (s, -1)
    else
      let s := s.store (s.nodes o).data (s.nodes o).size (List.replicate (len - (s.nodes o).size) 0)
      (s.setNode o { s.nodes o with size := len }, 0)

def vfsWriteKernelFile (x : ℕ) (data : List UInt8) : Fs × ℤ :=
  if s.vfsFileIsRegular x = false then (s, -1)
  else
    let o := (s.nodes x).owner
    if (s.nodes o).capacity < data.length then (s, -1)
    else
      let s := s.store (s.nodes o).data 0 data
      let s := s.setNode o { s.nodes o with size := data.length }
      (s.setNode x { s.nodes x with size := data.length }, 0)

def vfsFileWrite (x off : ℕ) (src : List UInt8) : Fs × ℤ :=
  if s.vfsFileIsRegular x = false then (s, -22)
  else
    let o := (s.nodes x).owner
    if (s.nodes o).capacity ≤ off then (s, -28)
    else
      let src := src.take ((s.nodes o).capacity - off)
      let s := s.store (s.nodes o).data off src
      let s := s.setNode o { s.nodes o with size := max (s.nodes o).size (off + src.length) }
      (s.setNode x { s.nodes x with size := (s.nodes o).size }, src.length)

end Fs

end YabroOS.Vfs
