import Mathlib.Algebra.Group.Nat.Defs
import Mathlib.Data.List.Basic

/-!
# The shared queue of `lab4Main.c`

Ten slots of 272 bytes from `queue->buffer`, each a `struct Message` of sixteen bytes and a
payload area of 256, two byte cursors, and the three semaphores. Addresses are offsets from
`queue->buffer`.
-/
namespace OsispLabs.Lab4

/-- The bytes a payload occupies: `size` rounded up to a multiple of four, and 256 for zero. -/
def paddedSize (size : UInt8) : ℕ := if size ≠ 0 then (size.toNat + 3) / 4 * 4 else 256

/-- The byte at offset 4 of a `struct Message` is its `size`. -/
def headerSize (header : List UInt8) : UInt8 := header.getD 4 0

/-- What `generateMessage` returns: the bytes of the structure and those `data` points to. -/
structure Message where
  header : List UInt8
  data : List UInt8
  header_length : header.length = 16
  data_length : data.length = paddedSize (headerSize header)
  deriving DecidableEq

/-- The shortest message: one byte of payload, padded to four. -/
def shortMessage : Message where
  header := [83, 0, 216, 0, 1, 0, 0, 0, 0, 0, 0, 0, 0, 0, 0, 0]
  data := [33, 33, 33, 33]
  header_length := rfl
  data_length := rfl

/-- The shared memory from `queue->buffer` on. -/
abbrev Memory := ℕ → UInt8

def memcpy (m : Memory) (dest : ℕ) (bytes : List UInt8) : Memory :=
  fun i => if dest ≤ i then bytes.getD (i - dest) (m i) else m i

/-- `memset` to zero. -/
def memset (m : Memory) (dest n : ℕ) : Memory :=
  fun i => if dest ≤ i ∧ i < dest + n then 0 else m i

def readBytes (m : Memory) (source n : ℕ) : List UInt8 :=
  (List.range n).map fun i => m (source + i)

/-- `struct MessageQueue`, with the histories of the messages copied into and out of the ring. -/
structure MessageQueue where
  memory : Memory
  head : ℕ
  tail : ℕ
  countAdd : ℕ
  countGet : ℕ
  empty : ℕ
  full : ℕ
  mutex : ℕ
  added : List (List UInt8 × List UInt8)
  read : List (List UInt8 × List UInt8)

namespace MessageQueue

/-- `BUFFER_SIZE` -/
def bufferSize : ℕ := 10

/-- `init_queue`, in shared memory that starts out zero. -/
def init_queue : MessageQueue := ⟨fun _ => 0, 0, 0, 0, 0, bufferSize, 0, 1, [], []⟩

/-- The wrap test of both loops. -/
def wrap (cursor : ℕ) : ℕ := if cursor / (256 + 16) = 10 then 0 else cursor

def addHeader (q : MessageQueue) (msg : Message) : MessageQueue :=
  { q with memory := memcpy q.memory q.tail msg.header, tail := q.tail + 16 }

def addData (q : MessageQueue) (msg : Message) : MessageQueue :=
  { q with
    memory := memcpy q.memory q.tail msg.data
    tail := q.tail + 256
    added := q.added ++ [(msg.header, msg.data)] }

/-- The header at `head`, which is then cleared. -/
def getHeader (q : MessageQueue) : List UInt8 × MessageQueue :=
  (readBytes q.memory q.head 16,
    { q with memory := memset q.memory q.head 16, head := q.head + 16 })

/-- The payload that belongs to `header`; `memset` clears `size` bytes of it, not the padding. -/
def getData (q : MessageQueue) (header : List UInt8) : MessageQueue :=
  let size := headerSize header
  { q with
    memory := memset q.memory q.head (if size ≠ 0 then size.toNat else 256)
    head := q.head + 256
    read := q.read ++ [(header, readBytes q.memory q.head (paddedSize size))] }

end MessageQueue

end OsispLabs.Lab4
