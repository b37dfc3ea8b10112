import YServer.BaseNet.Basic
import YServer.Machinery.RingWindow
import YServer.Machinery.Runs

/-!
# BaseNet/BufferRing — the provided-buffer ring and the receive buffers behind it

`buffer_ring` owns `buffer_ring_size` buffers and publishes their ids to the kernel through an
`io_uring_buf_ring`: the kernel takes ids at its head, and `return_buffer` puts an id back through
`io_uring::add_buffer`.  The ring's counters are natural numbers; the kernel's are sixteen bits
wide, which makes no difference to a write (`bufs_ioUringBufRingAdd_mod`).
-/

namespace YServer

open Machinery

/-! ## The ring shared with the kernel -/

/-- `io_uring_buf`: one entry of the ring.  `addr` is the index in `buffer_list_` of the buffer
whose `data()` it points to. -/
structure IoUringBuf where
  addr : ℕ
  len : ℕ
  bid : ℕ
  deriving DecidableEq, Repr

/-- `io_uring_buf_ring`: the slots and the position entries are published up to. -/
structure IoUringBufRing where
  bufs : ℕ → IoUringBuf
  tail : ℕ

def ioUringBufRingMask (ringEntries : ℕ) : ℕ := ringEntries - 1

def ioUringBufRingInit (br : IoUringBufRing) : IoUringBufRing := { br with tail := 0 }

/-- `io_uring_buf_ring_add`: writes a slot past the tail and publishes nothing. -/
def ioUringBufRingAdd (br : IoUringBufRing) (addr len bid mask bufOffset : ℕ) : IoUringBufRing :=
  { br with bufs := Function.update br.bufs ((br.tail + bufOffset) &&& mask) ⟨addr, len, bid⟩ }

/-- A tail that wraps at sixteen bits finds the same slots. -/
theorem bufs_ioUringBufRingAdd_mod {k : ℕ} (hk : k ≤ 16) (br : IoUringBufRing)
    (addr len bid bufOffset : ℕ) :
    (ioUringBufRingAdd { br with tail := br.tail % 2 ^ 16 } addr len bid
        (ioUringBufRingMask (2 ^ k)) bufOffset).bufs
      = (ioUringBufRingAdd br addr len bid (ioUringBufRingMask (2 ^ k)) bufOffset).bufs :=
  congrArg (fun slot => Function.update br.bufs slot ⟨addr, len, bid⟩)
    (mod_add_and_mask hk br.tail bufOffset)

/-- `io_uring_buf_ring_advance`: publishes the next `count` slots. -/
def ioUringBufRingAdvance (br : IoUringBufRing) (count : ℕ) : IoUringBufRing :=
  { br with tail := br.tail + count }

/-! ## io_uring.cpp -/

/-- The loop of `setup_buffer_ring`, over the buffer ids it runs through. -/
def fillBufferRing (bufferList : List Bytes) (mask : ℕ) (bufferIds : List ℕ) (br : IoUringBufRing) :
    IoUringBufRing :=
  bufferIds.foldl (fun br bufferId =>
    ioUringBufRingAdd br bufferId (bufferList.getD bufferId []).length bufferId mask bufferId) br

/-- `io_uring::setup_buffer_ring`, once the registration has succeeded. -/
def setupBufferRing (bufferRing : IoUringBufRing) (bufferList : List Bytes) (bufferRingSize : ℕ) :
    IoUringBufRing :=
  let mask := ioUringBufRingMask bufferRingSize
  let filled := fillBufferRing bufferList mask (List.range bufferRingSize)
    (ioUringBufRingInit bufferRing)
  ioUringBufRingAdvance filled bufferRingSize

/-- `io_uring::add_buffer`.  The offset it hands on is the buffer id, as in `setup_buffer_ring`. -/
def addBuffer (bufferRing : IoUringBufRing) (buffer : Bytes) (bufferId bufferRingSize : ℕ) :
    IoUringBufRing :=
  let mask := ioUringBufRingMask bufferRingSize
  ioUringBufRingAdvance
    (ioUringBufRingAdd bufferRing bufferId buffer.length bufferId mask bufferId) 1

/-! ## buffer_ring.cpp -/

/-- The class `buffer_ring`. -/
structure BufferRing where
  ring : IoUringBufRing
  bufferList : List Bytes
  borrowedBufferSet : ℕ → Bool

/-- `buffer_ring::register_buffer_ring`; `memory` is what `posix_memalign` returns. -/
def registerBufferRing (memory : IoUringBufRing) (bufferRingSize bufferSize : ℕ) : BufferRing :=
  let bufferList := List.replicate bufferRingSize (List.replicate bufferSize 0)
  { ring := setupBufferRing memory bufferList bufferList.length
    bufferList := bufferList
    borrowedBufferSet := fun _ => false }

/-- `buffer_ring::borrow_buffer`. -/
def BufferRing.borrowBuffer (b : BufferRing) (bufferId size : ℕ) : BufferRing × Span :=
  ({ b with borrowedBufferSet := Function.update b.borrowedBufferSet bufferId true },
    ⟨b.bufferList.getD bufferId [], size⟩)

/-- `buffer_ring::return_buffer`. -/
def BufferRing.returnBuffer (b : BufferRing) (bufferId : ℕ) : BufferRing :=
  { b with
    borrowedBufferSet := Function.update b.borrowedBufferSet bufferId false
    ring := addBuffer b.ring (b.bufferList.getD bufferId []) bufferId b.bufferList.length }

/-! ## What the operations leave behind -/

section Api

variable (b : BufferRing) (bufferId size : ℕ)

@[simp] theorem BufferRing.borrowBuffer_ring : (b.borrowBuffer bufferId size).1.ring = b.ring := rfl

@[simp] theorem BufferRing.borrowBuffer_bufferList :
    (b.borrowBuffer bufferId size).1.bufferList = b.bufferList := rfl

@[simp] theorem BufferRing.returnBuffer_bufferList :
    (b.returnBuffer bufferId).bufferList = b.bufferList := rfl

@[simp] theorem BufferRing.returnBuffer_tail :
    (b.returnBuffer bufferId).ring.tail = b.ring.tail + 1 := rfl

end Api

/-- The loop of `setup_buffer_ring` never moves the tail. -/
theorem tail_fillBufferRing (bufferList : List Bytes) (mask : ℕ) (ids : List ℕ)
    (br : IoUringBufRing) : (fillBufferRing bufferList mask ids br).tail = br.tail := by
  induction ids generalizing br with
  | nil => rfl
  | cons i ids ih => exact ih _

/-- **The initial fill puts id `i` in slot `i`** — by induction on the number of turns of the loop,
which find the tail still at zero. -/
theorem bufs_fillBufferRing (bufferList : List Bytes) (k m : ℕ) (hm : m ≤ 2 ^ k)
    (br : IoUringBufRing) (hbr : br.tail = 0) : ∀ i < m,
    (fillBufferRing bufferList (ioUringBufRingMask (2 ^ k)) (List.range m) br).bufs i
      = ⟨i, (bufferList.getD i []).length, i⟩ := by
  induction m with
  | zero => intro i hi; omega
  | succ m ih =>
    intro i hi
    have hslot : (0 + m) &&& ioUringBufRingMask (2 ^ k) = m := by
      rw [ioUringBufRingMask, Nat.and_two_pow_sub_one_eq_mod, Nat.mod_eq_of_lt (by omega),
        Nat.zero_add]
    rw [fillBufferRing, List.range_succ, List.foldl_append, List.foldl_cons, List.foldl_nil]
    change Function.update _ (((fillBufferRing _ _ _ br).tail + m) &&& _) _ i = _
    rw [tail_fillBufferRing, hbr, hslot]
    rcases Nat.lt_succ_iff_lt_or_eq.mp hi with hlt | rfl
    · rw [Function.update_of_ne (by omega)]
      exact ih (by omega) i hlt
    · rw [Function.update_self]

section Register

variable (memory : IoUringBufRing) (k bufferSize : ℕ)

@[simp] theorem length_bufferList_registerBufferRing (n : ℕ) :
    (registerBufferRing memory n bufferSize).bufferList.length = n := List.length_replicate

@[simp] theorem tail_registerBufferRing (n : ℕ) :
    (registerBufferRing memory n bufferSize).ring.tail = n := by
  change (fillBufferRing _ _ _ _).tail + (List.replicate n _).length = n
  rw [tail_fillBufferRing, List.length_replicate]
  exact Nat.zero_add n

/-- **After registration slot `i` offers buffer `i`, all of it.** -/
theorem bufs_registerBufferRing {i : ℕ} (hi : i < 2 ^ k) :
    (registerBufferRing memory (2 ^ k) bufferSize).ring.bufs i = ⟨i, bufferSize, i⟩ := by
  simp only [registerBufferRing, setupBufferRing, ioUringBufRingAdvance, List.length_replicate]
  rw [bufs_fillBufferRing _ k _ le_rfl _ rfl i hi]
  simp [List.getD_eq_getElem?_getD, hi]

end Register

end YServer
