import Silverfir.Lib.Access
import Silverfir.Vm

/-! The host functions of `wasi_impl_uv.c`, as far as the memory of the guest is concerned: which of
its bytes a call reads and writes, and what it returns. The uvwasi library is a parameter, its
serdes helpers are those of `wasi_serdes.c`. -/
namespace Silverfir.Wasi

abbrev Errno := BitVec 16

def esuccess : Errno := 0

def einval : Errno := 28

def eoverflow : Errno := 61

inductive Touch where
  | read (s : Span)
  | write (s : Span) (value : ℕ)
  /-- Handed to the library, which touches all of it. -/
  | buffer (s : Span)
  /-- The library has returned; no memory is touched. -/
  | answer (err : Errno)
  /-- `*result = err`; no memory of the guest is touched. -/
  | result (err : Errno)
  deriving DecidableEq, Repr

def Touch.span : Touch → Span
  | .read s | .write s _ | .buffer s => s
  | .answer _ | .result _ => ⟨0, 0⟩

abbrev Call := Access Touch Fault

/-- `tr_ctx`. Memory 0 lies in the memory of the process; `around` is what the process has at a
distance from its start. -/
structure TrCtx where
  args : List ValueU
  mem0 : Option (List UInt8)
  around : ℤ → UInt8

namespace TrCtx
variable (ctx : TrCtx)

def i32 (i : ℕ) : BitVec 32 := (ctx.args.getD i 0).setWidth 32

def i64 (i : ℕ) : BitVec 64 := ctx.args.getD i 0

/-- A `NULL` `mem0` has no `mdata`. -/
def pmem0 : Call (List UInt8) :=
  match ctx.mem0 with
  | none => .stop (.undefined "ctx.mem0")
  | some m => pure m

def byte (m : List UInt8) (pos : ℤ) : UInt8 :=
  if 0 ≤ pos ∧ pos < m.length then m.getD pos.toNat 0 else ctx.around pos

end TrCtx

/-- An `i32` converted to `size_t`. -/
def size (x : BitVec 32) : BitVec 64 := x.signExtend 64

/-- `pmem0 + p`, for `len` bytes. -/
def range (p len : BitVec 32) : Span := ⟨p.toInt, len.toNat⟩

/-! ### `wasi_serdes.c` -/

section Serdes
variable (ctx : TrCtx) (m : List UInt8)

def uint (bytes : ℤ → UInt8) (pos : ℤ) : ℕ → ℕ
  | 0 => 0
  | width + 1 => (bytes pos).toNat + 2 ^ 8 * uint bytes (pos + 1) width

def serdesRead (width : ℕ) (offset : BitVec 64) : Call ℕ := do
  .touch (.read ⟨offset.toInt, width⟩)
  pure (uint (ctx.byte m) offset.toInt width)

def serdesWrite (width : ℕ) (offset : BitVec 64) (value : ℕ) : Call Unit :=
  .touch (.write ⟨offset.toInt, width⟩ value)

/-- One `FIELD` of a structure. -/
structure Field where
  offset : ℕ
  width : ℕ
  value : ℕ
  deriving DecidableEq, Repr

def writeStruct (offset : BitVec 64) (fields : List Field) : Call Unit :=
  .each (fun f => serdesWrite f.width (offset + BitVec.ofNat 64 f.offset) f.value) fields

def checkBounds (offset limit size : ℕ) : Bool := decide (offset < limit) && decide (size ≤ limit - offset)

/-- `uvwasi_serdes_read_iovec_t` and `uvwasi_serdes_read_ciovec_t` -/
def readIovec (offset : BitVec 64) : Call (Errno × Span) := do
  let bufPtr ← serdesRead ctx m 4 offset
  let bufLen ← serdesRead ctx m 4 (offset + 4)
  pure (if checkBounds bufPtr m.length bufLen then esuccess else eoverflow, ⟨bufPtr, bufLen⟩)

def readvIovec : ℕ → BitVec 64 → List Span → Call (Errno × List Span)
  | 0, _, iovs => pure (esuccess, iovs)
  | n + 1, offset, iovs => do
    let (err, iov) ← readIovec ctx m offset
    if err ≠ esuccess then
      pure (err, iovs)
    else
      readvIovec n (offset + 8) (iovs ++ [iov])

def eventtypeClock : ℕ := 0

def eventtypeFdRead : ℕ := 1

def eventtypeFdWrite : ℕ := 2

/-- The fields that are read, in order. -/
structure Record where
  userdata : ℕ
  tag : ℕ
  rest : List ℕ

def readSubscription (offset : BitVec 64) : Call Record := do
  let userdata ← serdesRead ctx m 8 offset
  let type ← serdesRead ctx m 1 (offset + 8)
  if type = eventtypeClock then do
    let clockId ← serdesRead ctx m 4 (offset + 16)
    let timeout ← serdesRead ctx m 8 (offset + 24)
    let precision ← serdesRead ctx m 8 (offset + 32)
    let flags ← serdesRead ctx m 2 (offset + 40)
    pure ⟨userdata, type, [clockId, timeout, precision, flags]⟩
  else if type = eventtypeFdRead ∨ type = eventtypeFdWrite then do
    let fd ← serdesRead ctx m 4 (offset + 16)
    pure ⟨userdata, type, [fd]⟩
  else
    pure ⟨userdata, type, []⟩

def readEvent (offset : BitVec 64) : Call Record := do
  let userdata ← serdesRead ctx m 8 offset
  let error ← serdesRead ctx m 2 (offset + 8)
  let type ← serdesRead ctx m 1 (offset + 10)
  if type = eventtypeFdRead ∨ type = eventtypeFdWrite then do
    let nbytes ← serdesRead ctx m 8 (offset + 16)
    let flags ← serdesRead ctx m 2 (offset + 24)
    pure ⟨userdata, type, [error, nbytes, flags]⟩
  else
    pure ⟨userdata, type, [error]⟩

end Serdes

structure Fdstat where
  filetype : BitVec 8
  flags : BitVec 16
  rightsBase : BitVec 64
  rightsInheriting : BitVec 64
  deriving Inhabited

def Fdstat.fields (s : Fdstat) : List Field :=
  [⟨0, 1, s.filetype.toNat⟩, ⟨2, 2, s.flags.toNat⟩, ⟨8, 8, s.rightsBase.toNat⟩, ⟨16, 8, s.rightsInheriting.toNat⟩]

structure Filestat where
  dev : BitVec 64
  ino : BitVec 64
  filetype : BitVec 8
  nlink : BitVec 64
  size : BitVec 64
  atim : BitVec 64
  mtim : BitVec 64
  ctim : BitVec 64
  deriving Inhabited

def Filestat.fields (s : Filestat) : List Field :=
  [⟨0, 8, s.dev.toNat⟩, ⟨8, 8, s.ino.toNat⟩, ⟨16, 1, s.filetype.toNat⟩, ⟨24, 8, s.nlink.toNat⟩,
    ⟨32, 8, s.size.toNat⟩, ⟨40, 8, s.atim.toNat⟩, ⟨48, 8, s.mtim.toNat⟩, ⟨56, 8, s.ctim.toNat⟩]

structure Prestat where
  type : BitVec 8
  nameLen : BitVec 32
  deriving Inhabited

def Prestat.fields (s : Prestat) : List Field := [⟨0, 1, s.type.toNat⟩, ⟨4, 4, s.nameLen.toNat⟩]

/-- The answers of the library to a call: the error and what it stores through pointers to the
locals of the caller. -/
structure Uvwasi where
  argsSizesGet : Errno × BitVec 32 × BitVec 32
  /-- The second component is the distance of each argument from the start of the buffer. -/
  argsGet : Span → Errno × (ℕ → BitVec 32)
  clockResGet : BitVec 32 → Errno × BitVec 64
  clockTimeGet : BitVec 32 → BitVec 64 → Errno × BitVec 64
  environSizesGet : Errno × BitVec 32 × BitVec 32
  environGet : Span → Errno × (ℕ → BitVec 32)
  fdAdvise : BitVec 32 → BitVec 64 → BitVec 64 → BitVec 8 → Errno
  fdAllocate : BitVec 32 → BitVec 64 → BitVec 64 → Errno
  fdClose : BitVec 32 → Errno
  fdDatasync : BitVec 32 → Errno
  fdFdstatGet : BitVec 32 → Errno × Fdstat
  fdFdstatSetFlags : BitVec 32 → BitVec 16 → Errno
  fdFdstatSetRights : BitVec 32 → BitVec 64 → BitVec 64 → Errno
  fdFilestatGet : BitVec 32 → Errno × Filestat
  fdFilestatSetSize : BitVec 32 → BitVec 64 → Errno
  fdFilestatSetTimes : BitVec 32 → BitVec 64 → BitVec 64 → BitVec 16 → Errno
  fdPread : BitVec 32 → List Span → BitVec 64 → Errno × BitVec 32
  fdPrestatGet : BitVec 32 → Errno × Prestat
  fdPrestatDirName : BitVec 32 → Span → Errno
  fdPwrite : BitVec 32 → List Span → BitVec 64 → Errno × BitVec 32
  fdRead : BitVec 32 → List Span → Errno × BitVec 32
  fdReaddir : BitVec 32 → Span → BitVec 64 → Errno × BitVec 32
  fdRenumber : BitVec 32 → BitVec 32 → Errno
  fdSeek : BitVec 32 → BitVec 64 → BitVec 8 → Errno × BitVec 64
  fdSync : BitVec 32 → Errno
  fdTell : BitVec 32 → Errno × BitVec 64
  fdWrite : BitVec 32 → List Span → Errno × BitVec 32
  pathCreateDirectory : BitVec 32 → Span → Errno
  pathFilestatGet : BitVec 32 → BitVec 32 → Span → Errno × Filestat
  pathFilestatSetTimes : BitVec 32 → BitVec 32 → Span → BitVec 64 → BitVec 64 → BitVec 16 → Errno
  pathLink : BitVec 32 → BitVec 32 → Span → BitVec 32 → Span → Errno
  pathOpen : BitVec 32 → BitVec 32 → Span → BitVec 16 → BitVec 64 → BitVec 64 → BitVec 16 → Errno × BitVec 32
  pathReadlink : BitVec 32 → Span → Span → Errno × BitVec 32
  pathRemoveDirectory : BitVec 32 → Span → Errno
  pathRename : BitVec 32 → Span → BitVec 32 → Span → Errno
  pathSymlink : Span → BitVec 32 → Span → Errno
  pathUnlinkFile : BitVec 32 → Span → Errno
  pollOneoff : Record → Record → BitVec 32 → Errno × BitVec 32
  procRaise : BitVec 8 → Errno
  randomGet : Span → Errno
  schedYield : Errno

instance : Inhabited Uvwasi := ⟨by constructor <;> intros <;> exact default⟩

/-- The surroundings of a call: the library, and whether `malloc` has a block of a size. -/
structure Env extends Uvwasi where
  malloc : ℕ → Bool
  deriving Inhabited

/-- `*result = err` and the return to the guest. -/
def finish (err : Errno) : Call Errno := do
  .touch (.result err)
  pure err

/-- `check_err` in front of the rest of a function. -/
def checkErr (err : Errno) (rest : Call Errno) : Call Errno :=
  if err ≠ esuccess then finish err else rest

/-- A wrapper, or the end of one, around a call that only returns an error. -/
def report (err : Errno) : Call Errno := do
  .touch (.answer err)
  checkErr err (finish esuccess)

section Impl
variable (e : Env) (ctx : TrCtx)

/-- The ranges of memory 0 that a library function takes. -/
def hand (spans : List Span) : Call Unit := do
  let _ ← ctx.pmem0
  .each (fun s => .touch (.buffer s)) spans

/-- `check_err` of `err`, then the writes of what the library has stored, then the return. -/
def storing {α : Type} (err : Errno) (out : α) (write : α → Call Unit) (last : Call Errno) : Call Errno :=
  checkErr err do
    let _ ← ctx.pmem0
    write out
    last

/-- The end of a wrapper that stores an answer of the library. -/
def store {α : Type} (answer : Errno × α) (write : α → Call Unit) : Call Errno := do
  .touch (.answer answer.1)
  storing ctx answer.1 answer.2 write (finish esuccess)

/-- `wasi_args_get` and `wasi_environ_get` -/
def tableGet (sizes : Errno × BitVec 32 × BitVec 32) (get : Span → Errno × (ℕ → BitVec 32))
    (table buf : BitVec 32) : Call Errno := do
  let (err, count, bufSize) := sizes
  .touch (.answer err)
  checkErr err (
    if count = 0 then
      finish esuccess
    else if e.malloc (8 * count.toNat) = false then
      .stop (.err .general "vector: out of memory")
    else do
      hand ctx [range buf bufSize]
      let answer := get (range buf bufSize)
      store ctx answer fun offsets =>
        .each (fun i => serdesWrite 4 (size table + BitVec.ofNat 64 (4 * i)) (buf + offsets i).toNat)
          (List.range count.toNat))

/-- `wasi_fd_read`, `wasi_fd_pread`, `wasi_fd_write` and `wasi_fd_pwrite` -/
def vectored (call : List Span → Errno × BitVec 32) (iovs iovsLen done : BitVec 32) : Call Errno :=
  if e.malloc (16 * size iovsLen).toNat = false then
    .stop (.err .general "OOM")
  else do
    let m ← ctx.pmem0
    let (err, iovec) ← readvIovec ctx m iovsLen.toNat (size iovs) []
    .touch (.answer err)
    checkErr err do
      hand ctx iovec
      store ctx (call iovec) fun n => serdesWrite 4 (size done) n.toNat

def argsGet : Call Errno := tableGet e ctx e.argsSizesGet e.argsGet (ctx.i32 0) (ctx.i32 1)

def argsSizesGet : Call Errno :=
  store ctx e.argsSizesGet fun (argc, bufsize) => do
    serdesWrite 4 (size (ctx.i32 0)) argc.toNat
    serdesWrite 4 (size (ctx.i32 1)) bufsize.toNat

def clockResGet : Call Errno :=
  store ctx (e.clockResGet (ctx.i32 0)) fun resolution => serdesWrite 8 (size (ctx.i32 1)) resolution.toNat

def clockTimeGet : Call Errno :=
  store ctx (e.clockTimeGet (ctx.i32 0) (ctx.i64 1)) fun time => serdesWrite 8 (size (ctx.i32 2)) time.toNat

def environGet : Call Errno := tableGet e ctx e.environSizesGet e.environGet (ctx.i32 0) (ctx.i32 1)

/-- `*result` is not set; the trampoline starts it at 0. -/
def environSizesGet : Call Errno := do
  .touch (.answer e.environSizesGet.1)
  storing ctx e.environSizesGet.1 e.environSizesGet.2 (fun (count, bufSize) => do
    serdesWrite 4 (size (ctx.i32 0)) count.toNat
    serdesWrite 4 (size (ctx.i32 1)) bufSize.toNat) (pure 0)

def fdAdvise : Call Errno := report (e.fdAdvise (ctx.i32 0) (ctx.i64 1) (ctx.i64 2) ((ctx.i32 3).setWidth 8))

def fdAllocate : Call Errno := report (e.fdAllocate (ctx.i32 0) (ctx.i64 1) (ctx.i64 2))

def fdClose : Call Errno := report (e.fdClose (ctx.i32 0))

def fdDatasync : Call Errno := report (e.fdDatasync (ctx.i32 0))

def fdFdstatGet : Call Errno :=
  store ctx (e.fdFdstatGet (ctx.i32 0)) fun stat => writeStruct (size (ctx.i32 1)) stat.fields

def fdFdstatSetFlags : Call Errno := report (e.fdFdstatSetFlags (ctx.i32 0) ((ctx.i32 1).setWidth 16))

def fdFdstatSetRights : Call Errno := report (e.fdFdstatSetRights (ctx.i32 0) (ctx.i64 1) (ctx.i64 2))

def fdFilestatGet : Call Errno :=
  store ctx (e.fdFilestatGet (ctx.i32 0)) fun stat => writeStruct (size (ctx.i32 1)) stat.fields

def fdFilestatSetSize : Call Errno := report (e.fdFilestatSetSize (ctx.i32 0) (ctx.i64 1))

def fdFilestatSetTimes : Call Errno :=
  report (e.fdFilestatSetTimes (ctx.i32 0) (ctx.i64 1) (ctx.i64 2) ((ctx.i32 3).setWidth 16))

def fdPread : Call Errno :=
  vectored e ctx (fun iovec => e.fdPread (ctx.i32 0) iovec (ctx.i64 3)) (ctx.i32 1) (ctx.i32 2) (ctx.i32 4)

def fdPrestatGet : Call Errno :=
  store ctx (e.fdPrestatGet (ctx.i32 0)) fun stat => writeStruct (size (ctx.i32 1)) stat.fields

def fdPrestatDirName : Call Errno := do
  let path := range (ctx.i32 1) (ctx.i32 2)
  hand ctx [path]
  report (e.fdPrestatDirName (ctx.i32 0) path)

def fdPwrite : Call Errno :=
  vectored e ctx (fun iovec => e.fdPwrite (ctx.i32 0) iovec (ctx.i64 3)) (ctx.i32 1) (ctx.i32 2) (ctx.i32 4)

def fdRead : Call Errno :=
  vectored e ctx (e.fdRead (ctx.i32 0)) (ctx.i32 1) (ctx.i32 2) (ctx.i32 3)

def fdReaddir : Call Errno := do
  let buf := range (ctx.i32 1) (ctx.i32 2)
  hand ctx [buf]
  store ctx (e.fdReaddir (ctx.i32 0) buf (ctx.i64 3)) fun bufused => serdesWrite 4 (size (ctx.i32 4)) bufused.toNat

def fdRenumber : Call Errno := report (e.fdRenumber (ctx.i32 0) (ctx.i32 1))

def fdSeek : Call Errno :=
  store ctx (e.fdSeek (ctx.i32 0) (ctx.i64 1) ((ctx.i32 2).setWidth 8)) fun newoffset =>
    serdesWrite 8 (size (ctx.i32 3)) newoffset.toNat

def fdSync : Call Errno := report (e.fdSync (ctx.i32 0))

def fdTell : Call Errno :=
  store ctx (e.fdTell (ctx.i32 0)) fun offset => serdesWrite 8 (size (ctx.i32 1)) offset.toNat

def fdWrite : Call Errno :=
  vectored e ctx (e.fdWrite (ctx.i32 0)) (ctx.i32 1) (ctx.i32 2) (ctx.i32 3)

def pathCreateDirectory : Call Errno := do
  let path := range (ctx.i32 1) (ctx.i32 2)
  hand ctx [path]
  report (e.pathCreateDirectory (ctx.i32 0) path)

def pathFilestatGet : Call Errno := do
  let path := range (ctx.i32 2) (ctx.i32 3)
  hand ctx [path]
  store ctx (e.pathFilestatGet (ctx.i32 0) (ctx.i32 1) path) fun stat =>
    writeStruct (size (ctx.i32 4)) stat.fields

def pathFilestatSetTimes : Call Errno := do
  let path := range (ctx.i32 2) (ctx.i32 3)
  hand ctx [path]
  report (e.pathFilestatSetTimes (ctx.i32 0) (ctx.i32 1) path (ctx.i64 4) (ctx.i64 5) ((ctx.i32 6).setWidth 16))

def pathLink : Call Errno := do
  let oldPath := range (ctx.i32 2) (ctx.i32 3)
  let newPath := range (ctx.i32 5) (ctx.i32 6)
  hand ctx [oldPath, newPath]
  report (e.pathLink (ctx.i32 0) (ctx.i32 1) oldPath (ctx.i32 4) newPath)

/-- The error of the library is not looked at. -/
def pathOpen : Call Errno := do
  let path := range (ctx.i32 2) (ctx.i32 3)
  hand ctx [path]
  let answer := e.pathOpen (ctx.i32 0) (ctx.i32 1) path ((ctx.i32 4).setWidth 16) (ctx.i64 5) (ctx.i64 6)
    ((ctx.i32 7).setWidth 16)
  .touch (.answer answer.1)
  storing ctx esuccess answer.2 (fun outFd => serdesWrite 4 (size (ctx.i32 8)) outFd.toNat) (finish esuccess)

/-- The length of the buffer is taken before the buffer. -/
def pathReadlink : Call Errno := do
  let path := range (ctx.i32 1) (ctx.i32 2)
  let buf := range (ctx.i32 4) (ctx.i32 3)
  hand ctx [path, buf]
  store ctx (e.pathReadlink (ctx.i32 0) path buf) fun bufUsed => serdesWrite 4 (size (ctx.i32 5)) bufUsed.toNat

def pathRemoveDirectory : Call Errno := do
  let path := range (ctx.i32 1) (ctx.i32 2)
  hand ctx [path]
  report (e.pathRemoveDirectory (ctx.i32 0) path)

def pathRename : Call Errno := do
  let oldPath := range (ctx.i32 1) (ctx.i32 2)
  let newPath := range (ctx.i32 4) (ctx.i32 5)
  hand ctx [oldPath, newPath]
  report (e.pathRename (ctx.i32 0) oldPath (ctx.i32 3) newPath)

def pathSymlink : Call Errno := do
  let oldPath := range (ctx.i32 0) (ctx.i32 1)
  let newPath := range (ctx.i32 3) (ctx.i32 4)
  hand ctx [oldPath, newPath]
  report (e.pathSymlink oldPath (ctx.i32 2) newPath)

def pathUnlinkFile : Call Errno := do
  let path := range (ctx.i32 1) (ctx.i32 2)
  hand ctx [path]
  report (e.pathUnlinkFile (ctx.i32 0) path)

def pollOneoff : Call Errno := do
  let m ← ctx.pmem0
  let subscription ← readSubscription ctx m (size (ctx.i32 0))
  let event ← readEvent ctx m (size (ctx.i32 1))
  store ctx (e.pollOneoff subscription event (ctx.i32 2)) fun nevents =>
    serdesWrite 4 (size (ctx.i32 3)) nevents.toNat

def procExit : Call Errno := .stop (.err .exit "Application called exit()")

def procRaise : Call Errno := report (e.procRaise ((ctx.i32 0).setWidth 8))

def randomGet : Call Errno := do
  let buf := range (ctx.i32 0) (ctx.i32 1)
  hand ctx [buf]
  report (e.randomGet buf)

def schedYield : Call Errno := report e.schedYield

def sockAccept : Call Errno := finish einval

def sockRecv : Call Errno := finish einval

def sockSend : Call Errno := finish einval

def sockShutdown : Call Errno := finish einval

end Impl

inductive HostFn where
  | argsGet | argsSizesGet | clockResGet | clockTimeGet | environGet | environSizesGet | fdAdvise | fdAllocate
  | fdClose | fdDatasync | fdFdstatGet | fdFdstatSetFlags | fdFdstatSetRights | fdFilestatGet | fdFilestatSetSize
  | fdFilestatSetTimes | fdPread | fdPrestatDirName | fdPrestatGet | fdPwrite | fdRead | fdReaddir | fdRenumber
  | fdSeek | fdSync | fdTell | fdWrite | pathCreateDirectory | pathFilestatGet | pathFilestatSetTimes | pathLink
  | pathOpen | pathReadlink | pathRemoveDirectory | pathRename | pathSymlink | pathUnlinkFile | pollOneoff
  | procExit | procRaise | randomGet | schedYield | sockAccept | sockRecv | sockSend | sockShutdown
  deriving DecidableEq, Repr

/-- `wasi_host_info` -/
def HostFn.call (e : Env) (ctx : TrCtx) : HostFn → Call Errno
  | argsGet => Wasi.argsGet e ctx
  | argsSizesGet => Wasi.argsSizesGet e ctx
  | clockResGet => Wasi.clockResGet e ctx
  | clockTimeGet => Wasi.clockTimeGet e ctx
  | environGet => Wasi.environGet e ctx
  | environSizesGet => Wasi.environSizesGet e ctx
  | fdAdvise => Wasi.fdAdvise e ctx
  | fdAllocate => Wasi.fdAllocate e ctx
  | fdClose => Wasi.fdClose e ctx
  | fdDatasync => Wasi.fdDatasync e ctx
  | fdFdstatGet => Wasi.fdFdstatGet e ctx
  | fdFdstatSetFlags => Wasi.fdFdstatSetFlags e ctx
  | fdFdstatSetRights => Wasi.fdFdstatSetRights e ctx
  | fdFilestatGet => Wasi.fdFilestatGet e ctx
  | fdFilestatSetSize => Wasi.fdFilestatSetSize e ctx
  | fdFilestatSetTimes => Wasi.fdFilestatSetTimes e ctx
  | fdPread => Wasi.fdPread e ctx
  | fdPrestatDirName => Wasi.fdPrestatDirName e ctx
  | fdPrestatGet => Wasi.fdPrestatGet e ctx
  | fdPwrite => Wasi.fdPwrite e ctx
  | fdRead => Wasi.fdRead e ctx
  | fdReaddir => Wasi.fdReaddir e ctx
  | fdRenumber => Wasi.fdRenumber e ctx
  | fdSeek => Wasi.fdSeek e ctx
  | fdSync => Wasi.fdSync e ctx
  | fdTell => Wasi.fdTell e ctx
  | fdWrite => Wasi.fdWrite e ctx
  | pathCreateDirectory => Wasi.pathCreateDirectory e ctx
  | pathFilestatGet => Wasi.pathFilestatGet e ctx
  | pathFilestatSetTimes => Wasi.pathFilestatSetTimes e ctx
  | pathLink => Wasi.pathLink e ctx
  | pathOpen => Wasi.pathOpen e ctx
  | pathReadlink => Wasi.pathReadlink e ctx
  | pathRemoveDirectory => Wasi.pathRemoveDirectory e ctx
  | pathRename => Wasi.pathRename e ctx
  | pathSymlink => Wasi.pathSymlink e ctx
  | pathUnlinkFile => Wasi.pathUnlinkFile e ctx
  | pollOneoff => Wasi.pollOneoff e ctx
  | procExit => Wasi.procExit
  | procRaise => Wasi.procRaise e ctx
  | randomGet => Wasi.randomGet e ctx
  | schedYield => Wasi.schedYield e
  | sockAccept => Wasi.sockAccept
  | sockRecv => Wasi.sockRecv
  | sockSend => Wasi.sockSend
  | sockShutdown => Wasi.sockShutdown

end Silverfir.Wasi
