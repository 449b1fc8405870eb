import Saio.SystemModel
import Saio.BumpPool
import Mathlib.Tactic

/-!
# The preload files of the targets

Each target wraps its own system calls.  They all select a ring by one of
their descriptors and fill the entry at its tail, and differ in which
descriptor that is and in where the argument memory lives: nginx copies the
bytes of a TLS write into the pool, lighttpd copies the file offset into the
cell of the slot, memcached copies a whole message into three pools, and redis
and the echo server hand over the caller's pointer.
-/

namespace Saio

inductive Architecture
  | x86
  | aarch64
  deriving DecidableEq

inductive EscaCall
  | sendfile
  | shutdown
  | close
  | write
  | sendto
  | sendmsg
  deriving DecidableEq

/-- The `__ESCA_` numbers of the two architectures. -/
def EscaCall.number : Architecture → EscaCall → ℕ
  | .x86, .sendfile => 40
  | .x86, .shutdown => 48
  | .x86, .close => 3
  | .x86, .write => 1
  | .x86, .sendto => 44
  | .x86, .sendmsg => 46
  | .aarch64, .sendfile => 71
  | .aarch64, .shutdown => 210
  | .aarch64, .close => 57
  | .aarch64, .write => 64
  | .aarch64, .sendto => 206
  | .aarch64, .sendmsg => 211

theorem EscaCall.number_injective (arch : Architecture) :
    Function.Injective (EscaCall.number arch) := by
  intro first second hequal
  cases arch <;> cases first <;> cases second <;>
    first | rfl | simp [EscaCall.number] at hequal

def closeEntry (arch : Architecture) (fd : ℤ) : SysCall where
  sysnum := EscaCall.close.number arch
  args := [fd]
  args_le := SysCall.singleton_le fd

def shutdownEntry (arch : Architecture) (fd how : ℤ) : SysCall where
  sysnum := EscaCall.shutdown.number arch
  args := [fd, how]
  args_le := by simp

def writeEntry (arch : Architecture) (fd buf count : ℤ) : SysCall where
  sysnum := EscaCall.write.number arch
  args := [fd, buf, count]
  args_le := by simp

def sendfileEntry (arch : Architecture)
    (outFd inFd offset count : ℤ) : SysCall where
  sysnum := EscaCall.sendfile.number arch
  args := [outFd, inFd, offset, count]
  args_le := by simp

/-! ## nginx -/

def maxPoolSize : ℕ := 900000000

/-- The calls of `ngx.c`, of `ngx_tls.c` (`write`) and of `ngx_ktls.c`
(`sendfile`); the bytes of a write are those its buffer holds. -/
inductive NgxCall
  | close (fd : ℤ)
  | sendfile64 (outFd inFd offset count : ℤ)
  | write (fd : ℤ) (buf : List UInt8)
  | sendfile (outFd inFd offset count : ℤ)

/-- The part of the process memory the nginx wrappers write: the pool of
argument bytes and the offset of its next free byte. -/
structure NgxMemory where
  mpool : ℕ → UInt8
  poolOffset : ℕ

def memcpy (pool : ℕ → UInt8) (offset : ℕ) (buf : List UInt8) :
    ℕ → UInt8 := fun n =>
  if offset ≤ n then (buf[n - offset]?).getD (pool n) else pool n

/-- Where a write of `count` bytes starts in the pool. -/
def NgxMemory.place (memory : NgxMemory) (count : ℕ) : ℕ :=
  BumpPool.place maxPoolSize memory.poolOffset count

def NgxMemory.push (memory : NgxMemory) (buf : List UInt8) : NgxMemory where
  mpool := memcpy memory.mpool (memory.place buf.length) buf
  poolOffset := memory.place buf.length + buf.length

/-- `sendfile64` and `sendfile` are routed by the descriptor they read
from. -/
def NgxCall.descriptor : NgxCall → ℤ
  | .close fd => fd
  | .sendfile64 _ inFd _ _ => inFd
  | .write fd _ => fd
  | .sendfile _ inFd _ _ => inFd

/-- `mpool` is the address of the pool. -/
def ngx (arch : Architecture) (mpool : ℤ) :
    Wrapper NgxCall NgxMemory where
  descriptor := NgxCall.descriptor
  prepare := fun _ source memory _ _ _ =>
    match source with
    | .close fd => (closeEntry arch fd, memory)
    | .sendfile64 outFd inFd _ count =>
        (sendfileEntry arch outFd inFd 0 count, memory)
    | .write fd buf =>
        (writeEntry arch fd (mpool + memory.place buf.length) buf.length,
          memory.push buf)
    | .sendfile outFd inFd _ count =>
        (sendfileEntry arch outFd inFd 0 count, memory)
  perform := fun _ _ memory => memory

/-! ## lighttpd -/

/-- The number of cells of `off_arr` for one ring. -/
def offArrWidth : ℕ := 64 * 30 + 1

/-- `offset` is the address of the caller's file offset. -/
inductive LightyCall
  | shutdown (fd how : ℤ)
  | sendfile64 (outFd inFd offset count : ℤ)

/-- The file offsets in the process memory, by address. -/
abbrev LightyMemory := ℤ → ℤ

def storeOffset (memory : LightyMemory) (address value : ℤ) :
    LightyMemory := fun n =>
  if n = address then value else memory n

/-- The address of `off_arr[idx][i * MAX_TABLE_ENTRY + j]`. -/
def offArrCell (cfg : TableConfig) (offArr idx : ℤ) (i j : ℕ) : ℤ :=
  offArr + 8 * (idx * offArrWidth + (i * cfg.maxTableEntry + j : ℕ))

def LightyCall.descriptor : LightyCall → ℤ
  | .shutdown fd _ => fd
  | .sendfile64 outFd _ _ _ => outFd

/-- `offArr` is the address of `off_arr`. -/
def lighty (arch : Architecture) (offArr : ℤ) :
    Wrapper LightyCall LightyMemory where
  descriptor := LightyCall.descriptor
  prepare := fun cfg source memory idx i j =>
    match source with
    | .shutdown fd how => (shutdownEntry arch fd how, memory)
    | .sendfile64 outFd inFd offset count =>
        let cell := offArrCell cfg offArr idx i j
        let copied := storeOffset memory cell (memory offset)
        (sendfileEntry arch outFd inFd cell count,
          storeOffset copied offset (copied offset + count))
  perform := fun entry sysret memory =>
    match entry.args with
    | [_, _, cell, _] =>
        if 0 < sysret then storeOffset memory cell (memory cell + sysret)
        else memory
    | _ => memory

/-! ## redis -/

/-- `buf` is the address of the caller's buffer. -/
structure RedisCall where
  fd : ℤ
  buf : ℤ
  count : ℤ

def redis (arch : Architecture) : Wrapper RedisCall Unit where
  descriptor := RedisCall.fd
  prepare := fun _ source memory _ _ _ =>
    (writeEntry arch source.fd source.buf source.count, memory)
  perform := fun _ _ memory => memory

/-! ## echo -/

def sendtoEntry (arch : Architecture)
    (sockfd buf len flags : ℤ) : SysCall where
  sysnum := EscaCall.sendto.number arch
  args := [sockfd, buf, len, flags, 0, 0]
  args_le := by simp

/-- A `send`; `buf` is the address of the caller's buffer. -/
structure EchoCall where
  sockfd : ℤ
  buf : ℕ
  len : ℕ
  flags : ℤ

/-- The bytes of the process memory, by address. -/
abbrev EchoMemory := ℕ → UInt8

def echo (arch : Architecture) : Wrapper EchoCall EchoMemory where
  descriptor := EchoCall.sockfd
  prepare := fun _ source memory _ _ _ =>
    (sendtoEntry arch source.sockfd source.buf source.len source.flags,
      memory)
  perform := fun _ _ memory => memory

/-! ## memcached -/

def maxPoolIovSize : ℕ := 1024

def maxPoolMsgSize : ℕ := 1024

def iovMask : ℕ := maxPoolIovSize - 1

def msgMask : ℕ := maxPoolMsgSize - 1

def sendmsgEntry (arch : Architecture)
    (sockfd msg flags : ℤ) : SysCall where
  sysnum := EscaCall.sendmsg.number arch
  args := [sockfd, msg, flags]
  args_le := by simp

/-- The value that a C `int` takes from a wider one. -/
def toInt (value : ℤ) : ℤ := (BitVec.ofInt 32 value).toInt

/-- One `struct iovec`; `iovBase` is an address. -/
structure Iovec where
  iovBase : ℤ
  iovLen : ℕ

/-- One `struct msghdr`; the pointers are addresses. -/
structure MsgHdr where
  msgName : ℤ
  msgNamelen : ℕ
  msgIov : ℤ
  msgIovlen : ℕ
  msgControl : ℤ
  msgControllen : ℕ
  msgFlags : ℤ

/-- A `sendmsg`, with the bytes that the iovecs of its message hold; a length
that does not fit into an `int` is not represented. -/
structure McachedCall where
  sockfd : ℤ
  msgName : ℤ
  msgNamelen : ℕ
  iov : List (List UInt8)
  msgControl : ℤ
  msgControllen : ℕ
  msgFlags : ℤ
  flags : ℤ

/-- The addresses of the three pools. -/
structure PoolAddresses where
  mpool : ℤ
  iovpool : ℤ
  msgpool : ℤ

/-- `&iovpool[n]`. -/
def PoolAddresses.iovec (pools : PoolAddresses) (n : ℕ) : ℤ :=
  pools.iovpool + 16 * n

/-- `&msgpool[n]`. -/
def PoolAddresses.msghdr (pools : PoolAddresses) (n : ℕ) : ℤ :=
  pools.msgpool + 56 * n

structure McachedMemory where
  mpool : ℕ → UInt8
  poolOffset : ℕ
  iovpool : ℕ → Iovec
  iovOffset : ℕ
  msgpool : ℕ → MsgHdr
  msgOffset : ℕ

namespace McachedMemory

/-- The body of the loop over the iovecs, on the memory and on `res`. -/
def gather (pools : PoolAddresses) (gathered : McachedMemory × ℤ)
    (bytes : List UInt8) : McachedMemory × ℤ :=
  let memory := gathered.1
  let start :=
    BumpPool.place maxPoolSize memory.poolOffset bytes.length
  let slot := memory.iovOffset &&& iovMask
  ({ memory with
      mpool := memcpy memory.mpool start bytes
      iovpool := Function.update memory.iovpool slot
        ⟨pools.mpool + start, bytes.length⟩
      iovOffset := slot + 1
      poolOffset := start + bytes.length },
    gathered.2 + bytes.length)

/-- The loop over the iovecs, from a masked `iov_offset` on. -/
def gatherAll (pools : PoolAddresses) (memory : McachedMemory)
    (iov : List (List UInt8)) : McachedMemory × ℤ :=
  iov.foldl (gather pools)
    ({ memory with iovOffset := memory.iovOffset &&& iovMask }, 0)

/-- The header is copied behind the loop, which has left `gathered`; the
address and the control data of the message are not copied. -/
def copyMsghdr (pools : PoolAddresses) (memory : McachedMemory)
    (source : McachedCall) (gathered : McachedMemory) : McachedMemory :=
  { gathered with
    msgpool := Function.update memory.msgpool
      (memory.msgOffset &&& msgMask)
      { msgName := 0
        msgNamelen := 0
        msgIov := pools.iovec (memory.iovOffset &&& iovMask)
        msgIovlen := (toInt source.iov.length % 2 ^ 64).toNat
        msgControl := 0
        msgControllen := 0
        msgFlags := source.msgFlags }
    msgOffset := (memory.msgOffset &&& msgMask) + 1 }

/-- The memory after `sendmsg`, and the value it returns. -/
def sendmsg (pools : PoolAddresses) (memory : McachedMemory)
    (source : McachedCall) : McachedMemory × ℤ :=
  let gathered := memory.gatherAll pools
    (source.iov.take (toInt source.iov.length).toNat)
  (memory.copyMsghdr pools source gathered.1, gathered.2)

end McachedMemory

def mcached (arch : Architecture) (pools : PoolAddresses) :
    Wrapper McachedCall McachedMemory where
  descriptor := McachedCall.sockfd
  prepare := fun _ source memory _ _ _ =>
    (sendmsgEntry arch source.sockfd
        (pools.msghdr (memory.msgOffset &&& msgMask)) source.flags,
      (memory.sendmsg pools source).1)
  perform := fun _ _ memory => memory

end Saio
