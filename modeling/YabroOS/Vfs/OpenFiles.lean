import YabroOS.Kernel.State
import YabroOS.Vfs.CallChanges

namespace YabroOS.Vfs

open Fat Function

structure OpenDescState where
  offset : ℕ
  refs : ℕ
  used : Bool

/-- The fields of `struct file_desc` for a descriptor of a file of the tree; `size` is a copy that
only some calls renew. -/
structure OpenFile where
  inUse : Bool
  flags : ℕ
  offset : ℕ
  sharedOffset : Option (Fin 512)
  size : ℕ
  data : Option Buf
  vnode : ℕ

/-- The descriptor tables with the files that they are open on. -/
structure Files where
  fs : Fs
  tables : Fin 32 → ℕ → OpenFile
  openDescs : Fin 512 → OpenDescState

namespace Fs

variable (s : Fs)

/-- `kernel_file_read_at` without its branch for the boot image; `none` is an error. -/
def kernelFileReadAt (f : OpenFile) (off len : ℕ) : Option (List UInt8) :=
  if f.inUse = false then none
  else if f.size ≤ off ∨ len = 0 then some []
  else
    let want := min len (f.size - off)
    if s.vfsFileIsRegular f.vnode then
      if s.vfsFileSize f.vnode ≤ off then some []
      else
        (s.vfsFileData f.vnode).map fun b ↦
          (List.range (min want (s.vfsFileSize f.vnode - off))).map (fun k ↦ s.bytes b (off + k))
    else f.data.map fun b ↦ (List.range want).map (fun k ↦ s.bytes b (off + k))

/-- The bytes that `sys_pread64` finds, with their number; its branch for the boot image is left
out. -/
def preadData (f : OpenFile) (count off : ℕ) : ℕ × List UInt8 :=
  let size := if s.vfsFileIsRegular f.vnode then s.vfsFileSize f.vnode else f.size
  let data := if s.vfsFileIsRegular f.vnode then s.vfsFileData f.vnode else f.data
  if size ≤ off then (0, [])
  else
    let n := min count (size - off)
    (n, match data with
      | none => []
      | some b => (List.range n).map (fun k ↦ s.bytes b (off + k)))

end Fs

namespace Files

variable (st : Files)

def closedFile : OpenFile := ⟨false, 0, 0, none, 0, none, 0⟩

def setFd (table : Fin 32) (fd : ℕ) (f : OpenFile) : Files :=
  { st with tables := update st.tables table (update (st.tables table) fd f) }

def inUse (table : Fin 32) (fd : ℕ) : Bool := fd < maxFiles ∧ (st.tables table fd).inUse

def findFreeFd (table : Fin 32) (min : ℕ) : Option ℕ :=
  (List.range maxFiles).find? (fun fd ↦ min ≤ fd ∧ (st.tables table fd).inUse = false)

def allocOpenOffset (offset : ℕ) : Option (Files × Fin 512) :=
  match (List.finRange 512).find? (fun c ↦ (st.openDescs c).used = false) with
  | none => none
  | some c => some ({ st with openDescs := update st.openDescs c ⟨offset, 1, true⟩ }, c)

def retainOpenOffset : Option (Fin 512) → Files
  | none => st
  | some c =>
    { st with openDescs := update st.openDescs c { st.openDescs c with
      refs := (st.openDescs c).refs + 1 } }

def releaseOpenOffset : Option (Fin 512) → Files
  | none => st
  | some c =>
    let d := st.openDescs c
    if d.refs = 0 then st
    else { st with
      openDescs := update st.openDescs c
        { d with refs := d.refs - 1, used := if d.refs = 1 then false else d.used } }

def fdOffsetGet (f : OpenFile) : ℕ :=
  match f.sharedOffset with
  | none => f.offset
  | some c => (st.openDescs c).offset

def fdOffsetSet (table : Fin 32) (fd v size : ℕ) : Files :=
  let f := st.tables table fd
  let st := st.setFd table fd { f with offset := v, size := size }
  match f.sharedOffset with
  | none => st
  | some c => { st with openDescs := update st.openDescs c { st.openDescs c with offset := v } }

def sysClose (table : Fin 32) (fd : ℕ) : Files × ℤ :=
  if st.inUse table fd = false then (st, -9)
  else ((st.releaseOpenOffset (st.tables table fd).sharedOffset).setFd table fd closedFile, 0)

def fdCopyScalar (src : Fin 32) (fd : ℕ) (dst : Fin 32) (newFd : ℕ) (flags : ℕ → ℕ) : Files :=
  let f := st.tables src fd
  (st.setFd dst newFd { f with flags := flags f.flags }).retainOpenOffset f.sharedOffset

def clearCloexec (flags : ℕ) : ℕ := if flags.testBit 19 then flags - 0x80000 else flags

def sysDupInternal (table : Fin 32) (fd min : ℕ) (cloexec : Bool) : Files × ℤ :=
  if st.inUse table fd = false then (st, -9)
  else
    match st.findFreeFd table min with
    | none => (st, -24)
    | some n =>
      (st.fdCopyScalar table fd table n
        (fun flags ↦ clearCloexec flags + if cloexec then 0x80000 else 0), n)

def sysDup2 (table : Fin 32) (fd newFd : ℕ) : Files × ℤ :=
  if st.inUse table fd = false ∨ maxFiles ≤ newFd then (st, -9)
  else if fd = newFd then (st, newFd)
  else
    let st := if (st.tables table newFd).inUse then (st.sysClose table newFd).1 else st
    (st.fdCopyScalar table fd table newFd clearCloexec, newFd)

def taskFdTableClone (src dst : Fin 32) : Files :=
  (List.range maxFiles).foldl (fun st fd ↦
    if (st.tables src fd).inUse then st.fdCopyScalar src fd dst fd id
    else st.setFd dst fd (st.tables src fd)) st

def openVnode (table : Fin 32) (fd vn flags : ℕ) : Files × ℤ :=
  if flags.testBit 9 ∧ (st.fs.vfsFileTruncate vn 0).2 < 0 then (st, -5)
  else
    let st := if flags.testBit 9 then { st with fs := (st.fs.vfsFileTruncate vn 0).1 } else st
    let node := st.fs.nodes vn
    let offset := if flags.testBit 10 then node.size else 0
    match st.allocOpenOffset offset with
    | none => (st, -24)
    | some (st, c) => (st.setFd table fd ⟨true, flags, offset, some c, node.size, node.data, vn⟩, fd)

/-- `sys_open_resolved` for a path that `pseudo_lookup` does not know, as far as it opens the
regular files in memory: devices, directories and the files of the boot image are left out and get
-2. -/
def sysOpenResolved (table : Fin 32) (path : List UInt8) (flags : ℕ) : Files × ℤ :=
  match st.findFreeFd table 0 with
  | none => (st, -24)
  | some fd =>
    let found := st.fs.vfsLookup path
    match if found.2 = none ∧ flags.testBit 6 then found.1.vfsCreateFile path (flags.testBit 9)
      else found with
    | (fs, none) => ({ st with fs := fs }, -2)
    | (fs, some vn) =>
      if fs.vfsFileIsRegular vn then ({ st with fs := fs }.openVnode table fd vn flags)
      else ({ st with fs := fs }, -2)

def writeLoop (vn : ℕ) (append : Bool) (data : List UInt8) : ℕ → Fs → ℕ → ℕ → Fs × ℕ × ℕ × Option ℤ
  | 0, s, off, done => (s, off, done, none)
  | k + 1, s, off, done =>
    if data.length ≤ done then (s, off, done, none)
    else
      let n := min 256 (data.length - done)
      let off := if append then s.vfsFileSize vn else off
      match s.vfsFileWrite vn off ((data.drop done).take n) with
      | (s, w) =>
        if w < 0 then (s, off, done, some (if done ≠ 0 then done else w))
        else if w.toNat < n then (s, off + w.toNat, done + w.toNat, none)
        else writeLoop vn append data k s (off + w.toNat) (done + w.toNat)

/-- `sys_write` on a file. No bytes stand for a range that `user_range_ok` refuses; in a range that
it accepts no copy fails. -/
def sysWrite (table : Fin 32) (fd : ℕ) (data : Option (List UInt8)) : Files × ℤ :=
  if maxFiles ≤ fd then (st, -9)
  else
    match data with
    | none => (st, -14)
    | some data =>
      if 2 ^ 20 < data.length then (st, -22)
      else if data = [] then (st, 0)
      else if st.inUse table fd = false then (st, -9)
      else
        let f := st.tables table fd
        if st.fs.vfsFileIsRegular f.vnode = false ∨ f.flags % 4 = 0 then (st, -9)
        else
          match writeLoop f.vnode (f.flags.testBit 10) data data.length st.fs
            (st.fdOffsetGet f) 0 with
          | (fs, _, _, some rc) => ({ st with fs := fs }, rc)
          | (fs, off, done, none) =>
            ({ st with fs := fs }.fdOffsetSet table fd off (fs.vfsFileSize f.vnode), done)

/-- `sys_read` on a file; `rangeOk` is the answer of `user_range_ok`, and `copied` says whether the
bytes get to the user. -/
def sysRead (table : Fin 32) (fd count : ℕ) (rangeOk copied : Bool) : Files × ℤ :=
  if st.inUse table fd = false then (st, -9)
  else if count ≠ 0 ∧ rangeOk = false then (st, -14)
  else
    let f := st.tables table fd
    let size := if st.fs.vfsFileIsRegular f.vnode then st.fs.vfsFileSize f.vnode else f.size
    let data := if st.fs.vfsFileIsRegular f.vnode then st.fs.vfsFileData f.vnode else f.data
    let cur := st.fdOffsetGet f
    let n := min count (if cur < size then size - cur else 0)
    if n ≠ 0 ∧ data.isSome ∧ copied = false then (st, -14)
    else (st.fdOffsetSet table fd (cur + n) size, n)

def sysPread64 (table : Fin 32) (fd count off : ℕ) (copied : Bool) : ℤ × List UInt8 :=
  if st.inUse table fd = false then (-9, [])
  else
    match st.fs.preadData (st.tables table fd) count off with
    | (n, data) => if data ≠ [] ∧ copied = false then (-14, []) else (n, data)

def sysFtruncate (table : Fin 32) (fd len : ℕ) : Files × ℤ :=
  if st.inUse table fd = false then (st, -9)
  else
    let f := st.tables table fd
    if st.fs.vfsFileIsRegular f.vnode = false then (st, -22)
    else
      match st.fs.vfsFileTruncate f.vnode len with
      | (fs, rc) =>
        if rc ≠ 0 then ({ st with fs := fs }, -22)
        else ({ st with fs := fs }.setFd table fd { f with size := len }, 0)

inductive FileCall
  | open (table : Fin 32) (path : List UInt8) (flags : ℕ)
  | close (table : Fin 32) (fd : ℕ)
  | dup (table : Fin 32) (fd min : ℕ) (cloexec : Bool)
  | dup2 (table : Fin 32) (fd newFd : ℕ)
  | cloneTable (src dst : Fin 32)
  | write (table : Fin 32) (fd : ℕ) (data : Option (List UInt8))
  | read (table : Fin 32) (fd count : ℕ) (rangeOk copied : Bool)
  | ftruncate (table : Fin 32) (fd len : ℕ)
  | vfs (c : VfsCall)

def call (st : Files) : FileCall → Files
  | .open table path flags => (st.sysOpenResolved table path flags).1
  | .close table fd => (st.sysClose table fd).1
  | .dup table fd min cloexec => (st.sysDupInternal table fd min cloexec).1
  | .dup2 table fd newFd => (st.sysDup2 table fd newFd).1
  | .cloneTable src dst => st.taskFdTableClone src dst
  | .write table fd data => (st.sysWrite table fd data).1
  | .read table fd count rangeOk copied => (st.sysRead table fd count rangeOk copied).1
  | .ftruncate table fd len => (st.sysFtruncate table fd len).1
  | .vfs c => { st with fs := st.fs.call c }

def run (st : Files) (l : List FileCall) : Files := l.foldl call st

def start (s : Fs) : Files := ⟨s, fun _ _ ↦ closedFile, fun _ ↦ ⟨0, 0, false⟩⟩

end Files

end YabroOS.Vfs
