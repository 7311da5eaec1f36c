import Interim.Compiler.Init

/-!
# The hosted file system

Model of `sledge/stream.c` (`fs_mount`, `fs_open`, `stream_read`) and of
`devices/posixfs.c`, the driver the hosted builds mount at `/sd`. The files of
the host are a parameter: what `stat`, `opendir`, `open` and `read` find under
a name, the same at every call.

* `_file_cell`, `fs_list`, `stream_id` and `num_fs` are C statics; `FsState`
  holds them next to the heap.
* A `Stream` and a `Filesystem` come from `malloc`, so each gets the next
  unused block.
* The handlers of `/framebuffer` and `/keyboard` are not modelled. A call that
  would reach one of them is a fault; no path under `/sd` does, since the
  hosted builds mount posixfs last and `fs_open` takes the first match.
-/

namespace Interim.Hosted

open Writer (ascii cellAt car cdr cString)
open Compiler (allocList)
open Heap

/-! ## The host -/

/-- What the host has under a file name. -/
inductive HostFile
  /-- `stat` fails -/
  | missing
  /-- `opendir` succeeds; the names `readdir` yields -/
  | directory (names : List (List UInt8))
  /-- a file of `st_size` bytes that `read` returns in one piece -/
  | regular (data : List UInt8)
  /-- `stat` succeeds and `open` fails -/
  | unreadable
  deriving DecidableEq, Repr

/-- The files of the host, by the name the driver passes to it. -/
abbrev Host := List UInt8 → HostFile

/-- The C string in an array of bytes. -/
def cText (s : List UInt8) : List UInt8 := s.takeWhile (· ≠ 0)

/-! ## State -/

/-- The heap and the statics of `stream.c` and `posixfs.c`. -/
structure FsState where
  heap : Heap
  fsList : Word
  numFs : ℤ
  streamId : ℤ
  streamsUsed : ℕ
  filesystemsUsed : ℕ
  fileCell : Word

/-- `posixfs_open`, as a function pointer. -/
abbrev funcPosixfsOpen : Word := .ptr (.func 0) 0

/-- `posixfs_read`. -/
abbrev funcPosixfsRead : Word := .ptr (.func 1) 0

/-- `posixfs_write`. -/
abbrev funcPosixfsWrite : Word := .ptr (.func 2) 0

/-- `posixfs_mmap`. -/
abbrev funcPosixfsMmap : Word := .ptr (.func 3) 0

/-! ## `posixfs.c` -/

/-- `alloc_concat(str1, str2)` (`alloc.c`, lines 421–443) on two strings:
    `strncpy` pads the rest of the buffer with zeros. -/
def allocConcat (h : Heap) (str1 str2 : ℕ) : Except Stop (ℕ × Heap) := do
  let (i, h) ← h.cellAlloc
  let s1 ← cString h (h.cells str1).ar
  let s2 ← cString h (h.cells str2).ar
  let (b, h) ← h.bytesAlloc (toInt32 (s1.length + s2.length + 2))
  if s1.length + s2.length + 2 ≤ (h.bytes b).length then
    .ok (i, (h.setBytes b (s1 ++ s2 ++ [0, 0] ++ (h.bytes b).drop (s1.length + s2.length + 2))).setCell
      i ⟨.ptr (.bytes b) 0, .ofNat (s1.length + s2.length + 1), tagStr⟩)
  else .error .fault

/-- The `readdir` loop (lines 49–54): `f` is the listing so far, `nl` the
    string `"\n"`. -/
def listEntries (nl : ℕ) : List (List UInt8) → ℕ → Heap → Except Stop (ℕ × Heap)
  | [], f, h => .ok (f, h)
  | name :: names, f, h => do
    let (d, h) ← Compiler.allocStringCopy h (cText name)
    let (l, h) ← allocConcat h d nl
    let (f, h) ← allocConcat h f l
    listEntries nl names f h

/-- `read(f, res->ar.addr, len)` of a file into the buffer of cell `i`. -/
def readInto (h : Heap) (i : ℕ) (data : List UInt8) : Except Stop Heap :=
  match (h.cells i).ar with
  | .ptr (.bytes b) _ =>
    if data.length ≤ (h.bytes b).length then
      .ok (h.setBytes b (data ++ (h.bytes b).drop data.length))
    else .error .fault
  | _ => .error .fault

/-- Lines 38–72: the cell made of what the host has under the file name. -/
def loadFile (h : Heap) : HostFile → Except Stop (ℕ × Heap)
  | .missing => Compiler.allocStringCopy h (ascii "<file not found>")
  | .directory names => do
    let (nl, h) ← Compiler.allocStringCopy h [10]
    let (f, h) ← Compiler.allocStringCopy h []
    listEntries nl names f h
  | .regular data => do
    let (i, h) ← h.allocNumBytes data.length
    let h ← readInto h i data
    .ok (i, h)
  | .unreadable => Compiler.allocStringCopy h (ascii "<error: couldn't open file.>")

/-- Lines 25–31: the file name in a path that starts with `/sd/`. -/
def filename (path : List UInt8) : List UInt8 :=
  if path.length > 4 then path.drop 4 else ascii "."

/-- `posixfs_open(cpath)` (lines 13–83). -/
def posixfsOpen (host : Host) (s : FsState) (cpath : Word) : Except Stop (Word × FsState) := do
  let (i, h) ← s.heap.allocNil
  if cpath = .null then .ok (.cell i, { s with heap := h, fileCell := .cell i })
  else do
    let c ← cellAt h cpath
    if c.tag ≠ tagStr then .ok (.cell i, { s with heap := h, fileCell := .cell i })
    else do
      let path ← cString h c.ar
      if path.take 4 = ascii "/sd/" then do
        let (f, h) ← loadFile h (host (filename path))
        .ok (.cell f, { s with heap := h, fileCell := .cell f })
      else .ok (.cell i, { s with heap := h, fileCell := .cell i })

/-- `posixfs_read(stream)` (lines 85–87). -/
def posixfsRead (s : FsState) (_stream : Word) : Except Stop (Word × FsState) := .ok (s.fileCell, s)

/-- `((funcptr2)fn)(arg, NULL)` for a handler of a file system. -/
def callHandler (host : Host) (s : FsState) (fn arg : Word) : Except Stop (Word × FsState) :=
  if fn = funcPosixfsOpen then posixfsOpen host s arg
  else if fn = funcPosixfsRead then posixfsRead s arg
  else .error .fault

/-! ## `stream.c` -/

/-- The `Filesystem` a word points to. -/
def filesystemAt (h : Heap) : Word → Except Stop Filesystem
  | .ptr (.filesystem f) off => if off = 0 then .ok (h.filesystems f) else .error .fault
  | _ => .error .fault

/-- The `Stream` a word points to. -/
def streamAt (h : Heap) : Word → Except Stop Stream
  | .ptr (.stream k) off => if off = 0 then .ok (h.streams k) else .error .fault
  | _ => .error .fault

/-- Lines 31–50: a new stream on the file system `fs` points to, and the call
    of its open handler. -/
def openOn (host : Host) (s : FsState) (fs path : Word) : Except Stop (Word × FsState) := do
  let k := s.streamsUsed
  let h := { s.heap with streams := Function.update s.heap.streams k ⟨path, fs, s.streamId⟩ }
  let (i, h) ← h.allocInt (BitVec.ofInt 64 s.streamId)
  let h := h.setCell i { h.cells i with ar := .ptr (.stream k) 0, tag := tagStream }
  let s := { s with heap := h, streamId := s.streamId + 1, streamsUsed := k + 1 }
  let f ← filesystemAt h fs
  if f.openFn = .null then .ok (.cell i, s)
  else do
    let fn ← cellAt h f.openFn
    if fn.dr = .null then .ok (.cell i, s)
    else do
      let (_, s) ← callHandler host s fn.dr path
      .ok (.cell i, s)

/-- The loop of `fs_open` (lines 26–55) over at most `n` entries of `fs_list`;
    `text` is the path. `strstr(path, mount) == path` holds when the mount
    point is a prefix of the path. -/
def openFrom (host : Host) (s : FsState) (path : Word) (text : List UInt8) :
    ℕ → Word → Except Stop (Word × FsState)
  | 0, _ => .error .fuel
  | n + 1, fsl => do
    let fsCell ← car s.heap fsl
    if fsCell = .null then do
      let (i, h) ← s.heap.allocNil
      .ok (.cell i, { s with heap := h })
    else do
      let c ← cellAt s.heap fsCell
      let f ← filesystemAt s.heap c.dr
      let mp ← cellAt s.heap f.mountPoint
      let mount ← cString s.heap mp.ar
      if mount <+: text then openOn host s c.dr path
      else do
        let fsl ← cdr s.heap fsl
        openFrom host s path text n fsl

/-- `fs_open(path)` (lines 18–57). A string without a buffer matches no mount
    point. -/
def fsOpen (host : Host) (n : ℕ) (s : FsState) (path : Word) : Except Stop (Word × FsState) :=
  if path = .null then do
    let (i, h) ← s.heap.allocNil
    .ok (.cell i, { s with heap := h })
  else do
    let c ← cellAt s.heap path
    if c.tag ≠ tagStr ∨ c.ar = .null then do
      let (i, h) ← s.heap.allocNil
      .ok (.cell i, { s with heap := h })
    else do
      let text ← cString s.heap c.ar
      openFrom host s path text n s.fsList

/-- `stream_read(stream)` (lines 127–141). -/
def streamRead (host : Host) (s : FsState) (stream : Word) : Except Stop (Word × FsState) :=
  if stream = .null then do
    let (i, h) ← s.heap.allocNil
    .ok (.cell i, { s with heap := h })
  else do
    let c ← cellAt s.heap stream
    if c.tag ≠ tagStream then do
      let (i, h) ← s.heap.allocNil
      .ok (.cell i, { s with heap := h })
    else do
      let st ← streamAt s.heap c.ar
      let f ← filesystemAt s.heap st.fs
      let fn ← cellAt s.heap f.readFn
      callHandler host s fn.dr stream

/-- `wrap_in_lambda(cfunc)` (lines 119–123). -/
def wrapInLambda (h : Heap) (cfunc : Word) : Except Stop (ℕ × Heap) := do
  let (a, h) ← h.allocNil
  let (i, h) ← h.allocLambda (.cell a)
  .ok (i, h.setCell i { h.cells i with dr := cfunc })

/-- `fs_mount(path, handlers)` (lines 86–117) for a string `path`. -/
def fsMount (s : FsState) (path handlers : Word) : Except Stop FsState := do
  let k := s.filesystemsUsed
  let openFn ← car s.heap handlers
  let handlers ← cdr s.heap handlers
  let readFn ← car s.heap handlers
  let handlers ← cdr s.heap handlers
  let writeFn ← car s.heap handlers
  let handlers ← cdr s.heap handlers
  let deleteFn ← car s.heap handlers
  let handlers ← cdr s.heap handlers
  let mmapFn ← car s.heap handlers
  let fs : Filesystem := ⟨path, openFn, .null, readFn, writeFn, deleteFn, mmapFn⟩
  let h := { s.heap with filesystems := Function.update s.heap.filesystems k fs }
  let (i, h) ← h.allocInt (BitVec.ofInt 64 s.numFs)
  let h := h.setCell i { h.cells i with dr := .ptr (.filesystem k) 0, tag := tagFs }
  let (l, h) ← h.allocCons (.cell i) s.fsList
  .ok { s with
    heap := h, fsList := .cell l, numFs := s.numFs + 1, filesystemsUsed := k + 1 }

/-- `fs_mount_builtin(path, …)` (lines 160–170). -/
def fsMountBuiltin (s : FsState) (path : List UInt8)
    (openHandler readHandler writeHandler deleteHandler mmapHandler : Word) :
    Except Stop FsState := do
  let (o, h) ← wrapInLambda s.heap openHandler
  let (r, h) ← wrapInLambda h readHandler
  let (w, h) ← wrapInLambda h writeHandler
  let (d, h) ← wrapInLambda h deleteHandler
  let (m, h) ← wrapInLambda h mmapHandler
  let (handlers, h) ← allocList h [.cell o, .cell r, .cell w, .cell d, .cell m]
  let (p, h) ← Compiler.allocStringCopy h path
  fsMount { s with heap := h } (.cell p) (.cell handlers)

/-- `mount_posixfs()`. -/
def mountPosixfs (s : FsState) : Except Stop FsState :=
  fsMountBuiltin s (ascii "/sd") funcPosixfsOpen funcPosixfsRead funcPosixfsWrite .null
    funcPosixfsMmap

/-! ## Contents -/

/-- What a program finds in the cell a read returns. -/
inductive Content
  | nil
  | str (text : List UInt8)
  | bytes (data : List UInt8)
  deriving DecidableEq, Repr

/-- The bytes of a string or byte buffer cell. -/
def dataOf (h : Heap) (c : Cell) : Option (List UInt8) :=
  match c.ar, c.dr with
  | .ptr (.bytes b) off, .int v =>
    if off = 0 ∧ v.toNat ≤ (h.bytes b).length then some ((h.bytes b).take v.toNat) else none
  | _, _ => none

/-- The content of the cell a word points to. -/
def contentOf (h : Heap) (w : Word) : Option Content :=
  match w.asCell with
  | some (some i) =>
    let c := h.cells i
    if c.tag = tagCons then if c.ar = .null ∧ c.dr = .null then some .nil else none
    else if c.tag = tagStr then (dataOf h c).map .str
    else if c.tag = tagBytes then (dataOf h c).map .bytes
    else none
  | _ => none

/-- What is read from the host for a file name. -/
def HostFile.content : HostFile → Content
  | .missing => .str (ascii "<file not found>" ++ [0])
  | .directory names => .str (names.flatMap (fun n => cText n ++ [10]) ++ [0])
  | .regular data => .bytes data
  | .unreadable => .str (ascii "<error: couldn't open file.>" ++ [0])

/-- The content of a path under `/sd`; a path that does not go on with a slash
    names no file. -/
def pathContent (host : Host) (path : List UInt8) : Content :=
  if path.take 4 = ascii "/sd/" then (host (filename path)).content else .nil

end Interim.Hosted
