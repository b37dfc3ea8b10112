import Mathlib.Data.Int.Notation
import Mathlib.Data.Nat.Notation

/-!
# BaseNet/Basic — constants, bytes and the ways a worker can die

The constants of `constant.h`, the bytes the network code moves, and the `Fault`s that end a run of
the modelled code: none of them is an outcome the code goes on from.
-/

namespace YServer

/-- A `char` of a buffer or a `std::string`. -/
abbrev Byte := UInt8

/-- The contents of a `std::string`, a `std::vector<char>` or a region of one. -/
abbrev Bytes := List Byte

/-- The bytes of an ASCII literal. -/
def ascii (literal : String) : Bytes := literal.toList.map fun c => UInt8.ofNat c.toNat

/-- `std::tolower` in the "C" locale. -/
def tolower (c : Byte) : Byte := if 0x41 ≤ c ∧ c ≤ 0x5a then c + 0x20 else c

/-- `ETIME`. -/
def etime : ℤ := 62

/-! ## constant.h -/

def ioUringQueueSize : ℕ := 2048

def bufferRingSize : ℕ := 4096

def bufferSize : ℕ := 1024

/-- The length that `io_uring_prep_recv`, `_send` and `_splice` put into an entry, where it has 32
bits. -/
def requestedBytes (length : ℕ) : ℕ := length % UInt32.size

/-! ## Faults -/

/-- What ends a run of the modelled code. -/
inductive Fault
  /-- An access outside a container or a buffer: undefined behaviour. -/
  | outOfRange
  /-- A loop that never ends. -/
  | hangs
  /-- An exception reached `unhandled_exception`, hence `std::terminate`. -/
  | terminate
  /-- The null that `io_uring_get_sqe` answers on a full queue was dereferenced. -/
  | nullSqe
  /-- A coroutine was resumed or destroyed whose frame is gone. -/
  | deadCoroutine
  deriving DecidableEq, Repr

/-- A computation that ends well has ended well step by step. -/
theorem bind_eq_ok {α β : Type} {first : Except Fault α} {next : α → Except Fault β} {result : β}
    (h : first >>= next = .ok result) : ∃ a, first = .ok a ∧ next a = .ok result := by
  cases first with
  | error fault => cases h
  | ok a => exact ⟨a, rfl, h⟩

/-! ## Spans -/

/-- A `std::span<char>`: what lies at its `data()`, and the size it claims. -/
structure Span where
  data : Bytes
  size : ℕ
  deriving DecidableEq, Repr

end YServer
