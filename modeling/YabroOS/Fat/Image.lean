import YabroOS.Lib.Walk
import Mathlib.Algebra.Group.Nat.Defs
import Mathlib.Data.List.DropRight

namespace YabroOS.Fat

open Lib

/-- The module `initrd.fat`: its bytes, and how many there are. -/
structure Volume where
  bytes : ℕ → UInt8
  size : ℕ

/-- The components of a path: the loops over the path skip the slashes between them. -/
def components (path : List UInt8) : List (List UInt8) := (path.splitOn 47).filter (· ≠ [])

def cstr (path : List UInt8) : List UInt8 := path.takeWhile (· ≠ 0)

def asciiFold (c : UInt8) : UInt8 := if 97 ≤ c ∧ c ≤ 122 then c - 32 else c

/-- `name_matches`; the buffer of the candidate holds zeros after its last byte. -/
def nameMatches : List UInt8 → List UInt8 → Bool
  | [], cand => cand.headD 0 = 0
  | q :: query, cand =>
    if q = 0 then cand.headD 0 = 0
    else
      match cand with
      | [] => false
      | c :: cand => c ≠ 0 ∧ asciiFold q = asciiFold c ∧ nameMatches query cand

def noLfn : List UInt8 := List.replicate 260 0

def lfnWrite : List ℕ → ℕ → List UInt8 → List UInt8
  | [], _, dst => dst
  | u :: us, pos, dst =>
    if u = 0 ∨ u = 0xffff then if pos < 260 then dst.set pos 0 else dst
    else if 259 ≤ pos then dst
    else lfnWrite us (pos + 1) (dst.set pos (if u ≤ 0x7f then UInt8.ofNat u else 63))

namespace Volume

variable (f : Volume)

def byte (o : ℕ) : ℕ := (f.bytes o).toNat
def le16 (o : ℕ) : ℕ := f.byte o + 2 ^ 8 * f.byte (o + 1)
def le32 (o : ℕ) : ℕ := f.le16 o + 2 ^ 16 * f.le16 (o + 2)

-- what `fat32_init` keeps of the header
def bytesPerSector : ℕ := f.le16 11
def sectorsPerCluster : ℕ := f.byte 13
def reservedSectors : ℕ := f.le16 14
def numFats : ℕ := f.byte 16
def fatSize : ℕ := f.le32 36
def rootCluster : ℕ := f.le32 44
def fatStart : ℕ := f.reservedSectors * f.bytesPerSector
def dataStart : ℕ := f.fatStart + f.numFats * f.fatSize * f.bytesPerSector
def clusterSize : ℕ := f.sectorsPerCluster * f.bytesPerSector

def perCluster : ℕ := f.clusterSize / 32

def fatClusterValid (cluster : ℕ) : Bool :=
  f.bytesPerSector ≠ 0 ∧ f.sectorsPerCluster ≠ 0 ∧ 2 ≤ cluster ∧ cluster < 0x0FFFFFF7 ∧
    f.clusterSize ≠ 0 ∧ cluster - 2 < (f.size - f.dataStart) / f.clusterSize

def clusterToPtr (cluster : ℕ) : Option ℕ :=
  if f.fatClusterValid cluster = false then none
  else
    let offset := f.dataStart + (cluster - 2) * f.clusterSize
    if f.size ≤ offset then none else some offset

def read32 (o : ℕ) : Out ℕ := if o + 4 ≤ f.size then .ret (f.le32 o) else .outside

def nextCluster (cluster : ℕ) : Out ℕ :=
  if f.bytesPerSector = 0 then .ret 0x0FFFFFFF
  else if f.fatSize * f.bytesPerSector < cluster * 4 + 4 ∨
    f.size < f.fatStart + cluster * 4 + 4 then .ret 0x0FFFFFFF
  else f.read32 (f.fatStart + cluster * 4) >>= fun v ↦ .ret (v % 2 ^ 28)

def readEntry (p : Option ℕ) (i : ℕ) : Out ℕ :=
  match p with
  | none => .outside
  | some o => if o + 32 * (i + 1) ≤ f.size then .ret (o + 32 * i) else .outside

def attributes (e : ℕ) : ℕ := f.byte (e + 11)
def firstCluster (e : ℕ) : ℕ := 2 ^ 16 * f.le16 (e + 20) + f.le16 (e + 26)
def fileSize (e : ℕ) : ℕ := f.le32 (e + 28)
def isDir (e : ℕ) : Bool := (f.attributes e).testBit 4
def isVolume (e : ℕ) : Bool := (f.attributes e).testBit 3
def isSystem (e : ℕ) : Bool := (f.attributes e).testBit 2

def fatShortName (e : ℕ) : List UInt8 :=
  let base := ((List.range 8).map (fun i ↦ f.bytes (e + i))).rdropWhile (· = 32)
  let ext := ((List.range 3).map (fun i ↦ f.bytes (e + 8 + i))).rdropWhile (· = 32)
  if base = [] then [] else if ext = [] then base else base ++ 46 :: ext

def lfnChars (e : ℕ) : List ℕ :=
  [1, 3, 5, 7, 9, 14, 16, 18, 20, 22, 24, 28, 30].map (fun o ↦ f.le16 (e + o))

def lfnAppendEntry (dst : List UInt8) (e : ℕ) : List UInt8 :=
  let seq := f.byte e % 32
  if seq = 0 then dst
  else
    let dst := if (f.byte e).testBit 6 then noLfn else dst
    let base := (seq - 1) * 13
    if 259 ≤ base then dst else lfnWrite (f.lfnChars e) base dst

def eachEntry {σ α : Type} (step : σ → ℕ → Out (σ ⊕ α)) (p : Option ℕ) : List ℕ → σ → Out (σ ⊕ α) :=
  Out.each (fun s i ↦ f.readEntry p i >>= fun e ↦ step s e)

def chainRound {σ α : Type} (body : σ → ℕ → Out (σ ⊕ α)) (fin : σ → α) (s : σ × ℕ) :
    Out (σ × ℕ ⊕ α) :=
  body s.1 s.2 >>= fun r ↦
    match r with
    | .inr a => .ret (.inr a)
    | .inl t => f.nextCluster s.2 >>= fun next ↦
      if 0x0FFFFFF8 ≤ next then .ret (.inr (fin t)) else .ret (.inl (t, next))

def findStep (name lfn : List UInt8) (e : ℕ) : List UInt8 ⊕ Option ℕ :=
  if f.bytes e = 0 then .inr none
  else if f.bytes e = 0xE5 then .inl (lfn.set 0 0)
  else if f.attributes e = 0x0f then .inl (f.lfnAppendEntry lfn e)
  else if (f.fatShortName e ≠ [] ∧ nameMatches name (f.fatShortName e)) ∨ (lfn.headD 0 ≠ 0 ∧
    nameMatches name lfn) then
    .inr (some e)
  else .inl (lfn.set 0 0)

def findEntryInDirectory (fuel cluster : ℕ) (name : List UInt8) : Out (Option ℕ) :=
  Out.loop (f.chainRound
    (fun lfn c ↦ f.eachEntry (fun lfn e ↦ .ret (f.findStep name lfn e)) (f.clusterToPtr c)
    (List.range f.perCluster) lfn) (fun _ ↦ none)) fuel (noLfn, cluster)

def fatPathComponents (path : List UInt8) : List (List UInt8) := components ((cstr path).take 259)

/-- The walk that `find_file_in_root` and `bootfs_path_is_dir` share, to the entry of the last
component; `check` is what they ask of the first cluster of a directory on the way. -/
def walkPath (check : ℕ → Bool) (fuel : ℕ) : ℕ → List (List UInt8) → Out (Option ℕ)
  | _, [] => .ret none
  | cluster, name :: rest =>
    f.findEntryInDirectory fuel cluster name >>= fun r ↦
      match r with
      | none => .ret none
      | some e =>
        if rest = [] then .ret (some e)
        else if f.isDir e = false then .ret none
        else if f.firstCluster e = 0 ∨ check (f.firstCluster e) = false then .ret none
        else walkPath check fuel (f.firstCluster e) rest

def findFileInRoot (fuel : ℕ) (path : List UInt8) : Out (Option ℕ) :=
  f.walkPath (fun _ ↦ true) fuel f.rootCluster (fatPathComponents path) >>= fun r ↦
    .ret (r.bind (fun e ↦ if f.isDir e then none else some e))

def bootfsPathIsDir (fuel : ℕ) (path : List UInt8) : Out Bool :=
  if cstr path = [] then .ret false
  else if fatPathComponents path = [] then .ret true
  else f.walkPath f.fatClusterValid fuel f.rootCluster (fatPathComponents path) >>= fun r ↦
    .ret (r.any f.isDir)

def bootfsFileSize (fuel : ℕ) (path : List UInt8) : Out ℕ :=
  f.findFileInRoot fuel path >>= fun r ↦ .ret (r.elim 0 f.fileSize)

/-- The loop of `read_file_range_by_entry` that skips clusters; none when the chain ends before. -/
def skipClusters : ℕ → ℕ → Out (Option ℕ)
  | 0, cur => .ret (some cur)
  | skip + 1, cur => f.nextCluster cur >>= fun next ↦
    if 0x0FFFFFF8 ≤ next then .ret none else skipClusters skip next

def copyFrom (p : Option ℕ) (start n : ℕ) : Out (List UInt8) :=
  match p with
  | none => .outside
  | some o =>
    if o + start + n ≤ f.size then .ret ((List.range n).map (fun i ↦ f.bytes (o + start + i)))
    else .outside

def copyRound (want : ℕ) (s : ℕ × ℕ × List UInt8) : Out (ℕ × ℕ × List UInt8 ⊕ List UInt8) :=
  match s with
  | (cur, start, done) =>
    if want ≤ done.length then .ret (.inr done)
    else f.copyFrom (f.clusterToPtr cur) start (min (f.clusterSize - start) (want - done.length))
      >>= fun bytes ↦
      if want ≤ (done ++ bytes).length then .ret (.inl (cur, 0, done ++ bytes))
      else f.nextCluster cur >>= fun next ↦
        if 0x0FFFFFF8 ≤ next then .ret (.inr (done ++ bytes))
        else .ret (.inl (next, 0, done ++ bytes))

def wanted (e offset len : ℕ) : ℕ := min len (f.fileSize e - offset)

def readFileRangeByEntry (fuel e offset len : ℕ) : Out (List UInt8) :=
  if f.fileSize e ≤ offset ∨ len = 0 then .ret []
  else f.skipClusters (offset / f.clusterSize) (f.firstCluster e) >>= fun r ↦
    match r with
    | none => .ret []
    | some cur =>
      Out.loop (f.copyRound (f.wanted e offset len)) fuel (cur, offset % f.clusterSize, [])

def bootfsReadRootFile (fuel : ℕ) (path : List UInt8) (offset len : ℕ) : Out (List UInt8) :=
  if len = 0 then .ret []
  else f.findFileInRoot fuel path >>= fun r ↦
    match r with
    | none => .ret []
    | some e => f.readFileRangeByEntry fuel e offset len

end Volume

/-- The two kinds of `ExecReadContext`: the data of a file of the VFS, or an entry of the volume. -/
inductive ExecSource
  | vfs (data : List UInt8)
  | fat (e : ℕ)

def ExecSource.size (f : Volume) : ExecSource → ℕ
  | .vfs data => data.length
  | .fat e => f.fileSize e

def Volume.kernelExecveSourceRead (f : Volume) (fuel : ℕ) (source : ExecSource) (offset len : ℕ) :
    Out (Option (List UInt8)) :=
  if source.size f < offset ∨ source.size f - offset < len then .ret none
  else if len = 0 then .ret (some [])
  else
    match source with
    | .vfs data => .ret (some ((data.drop offset).take len))
    | .fat e => f.readFileRangeByEntry fuel e offset len >>= fun bytes ↦ .ret (some bytes)

inductive ImportCall
  | mkdir (path : List UInt8)
  | file (path : List UInt8) (size e : ℕ)

inductive ImportItem
  | call (c : ImportCall)
  | enter (cluster : ℕ) (path : List UInt8)

namespace Volume

variable (f : Volume)

def slashed (path : List UInt8) : List UInt8 :=
  if 1 < path.length ∧ path.getLast? ≠ some 47 ∧ path.length + 1 < 260 then path ++ [47] else path

def importName (lfn : List UInt8) (e : ℕ) : List UInt8 :=
  if cstr lfn ≠ [] then cstr lfn else f.fatShortName e

def importItems (path lfn : List UInt8) (e : ℕ) : List ImportItem :=
  let name := f.importName lfn e
  if name = [] ∨ f.isVolume e ∨ f.isSystem e ∨ name = [46] ∨ name = [46, 46] then []
  else if 260 ≤ (slashed path).length + name.length + 1 then []
  else
    let path := slashed path ++ name
    if f.isDir e then
      .call (.mkdir path) ::
        (if f.firstCluster e ≠ 0 ∧ f.fatClusterValid (f.firstCluster e) then
          [.enter (f.firstCluster e) path] else [])
    else if 0 < f.fileSize e then [.call (.file path (f.fileSize e) e)]
    else []

def importStep (path lfn : List UInt8) (e : ℕ) : List UInt8 × List ImportItem ⊕ Unit :=
  if f.bytes e = 0 then .inr ()
  else if f.bytes e = 0xE5 then .inl (lfn.set 0 0, [])
  else if f.attributes e = 0x0f then .inl (f.lfnAppendEntry lfn e, [])
  else .inl (lfn.set 0 0, f.importItems path lfn e)

def performItems (enter : ℕ → List UInt8 → Out (List ImportCall)) :
    List ImportItem → Out (List ImportCall)
  | [] => .ret []
  | .call c :: items => performItems enter items >>= fun calls ↦ .ret (c :: calls)
  | .enter cluster path :: items =>
    enter cluster path >>= fun calls ↦ performItems enter items >>= fun calls' ↦
      .ret (calls ++ calls')

def importEntry (enter : ℕ → List UInt8 → Out (List ImportCall)) (path : List UInt8)
    (s : List UInt8 × List ImportCall) (e : ℕ) :
    Out (List UInt8 × List ImportCall ⊕ List ImportCall) :=
  match f.importStep path s.1 e with
  | .inr () => .ret (.inr s.2)
  | .inl (lfn, items) => performItems enter items >>= fun calls ↦ .ret (.inl (lfn, s.2 ++ calls))

def importCluster (enter : ℕ → List UInt8 → Out (List ImportCall)) (path : List UInt8)
    (s : List UInt8 × List ImportCall) (cluster : ℕ) :
    Out (List UInt8 × List ImportCall ⊕ List ImportCall) :=
  match f.clusterToPtr cluster with
  | none => .ret (.inr s.2)
  | some p => f.eachEntry (f.importEntry enter path) (some p) (List.range f.perCluster) s

def importFatDirIntoVfs (fuel : ℕ) : ℕ → ℕ → List UInt8 → Out (List ImportCall)
  | 0, _, _ => .ret []
  | depth + 1, cluster, path =>
    Out.loop (f.chainRound (f.importCluster (importFatDirIntoVfs fuel depth) path) Prod.snd) fuel
      ((noLfn, []), cluster)

def importFatRootIntoVfs (fuel : ℕ) : Out (List ImportCall) :=
  f.importFatDirIntoVfs fuel 17 f.rootCluster [47]

def mounted : Bool := f.fatClusterValid f.rootCluster

end Volume

end YabroOS.Fat
