import YServer.BaseNet.BufferRing
import YServer.BaseNet.HttpParser
import Mathlib.Data.Int.Order.Basic
import Mathlib.Tactic.Linarith

/-!
# BaseNet/HandleClient — one turn of `handle_client`'s loop

A turn starts with a recv completion and ends in front of the next recv, or outside the loop:

    completion ──await_resume──▶ (id, size) ──size == 0──▶ break
                                    │
                                    └─▶ borrow_buffer ─▶ parse_packet ─▶ ServeHTTP ─▶ return_buffer

The test for a buffer in `await_resume` is `flags | IORING_CQE_F_BUFFER`, which no completion fails,
so a completion without a buffer is taken for buffer `flags >> 16` with `size` bytes.  End of stream
comes out right, since its size is zero; an error becomes a span of nearly `2 ^ 64` bytes.
-/

namespace YServer

open Machinery

/-! ## The completion -/

def ioringCqeFBuffer : UInt32 := 1

def ioringCqeBufferShift : UInt32 := 16

/-- `recv_awaiter::await_resume`: the buffer id and the size. -/
def recvAwaitResume (cqeRes : Int32) (cqeFlags : UInt32) : UInt32 × ℤ :=
  if cqeFlags ||| ioringCqeFBuffer ≠ 0 then (cqeFlags >>> ioringCqeBufferShift, cqeRes.toInt)
  else (0, 0)

/-- **Every completion passes the test for a buffer.** -/
theorem recvAwaitResume_eq (cqeRes : Int32) (cqeFlags : UInt32) :
    recvAwaitResume cqeRes cqeFlags = (cqeFlags >>> ioringCqeBufferShift, cqeRes.toInt) := by
  refine if_pos fun h => ?_
  have hone : ioringCqeFBuffer = 0 := (UInt32.or_eq_zero_iff.mp h).2
  exact absurd hone (by decide)

/-! ## The turn -/

/-- What a handler works on: the parser's bytes, and the thread's buffers of `BUFFER_SIZE` bytes. -/
structure Handler where
  rawHttpRequest : Bytes
  buffers : BufferRing
  sized : ∀ buffer ∈ buffers.bufferList, buffer.length = bufferSize

/-- What a turn did. -/
structure Turn where
  handler : Handler
  /-- The packets handed to `parse_packet`. -/
  packets : List Bytes
  /-- The requests handed to `ServeHTTP`. -/
  requests : List HttpRequest
  /-- The ids handed to `return_buffer`. -/
  returned : List ℕ
  leaves : Bool

/-- The conversion to `size_t`. -/
def toSizeT (n : ℤ) : ℕ := (n % 2 ^ 64).toNat

/-- `parse_packet` on a span.  A size that no string can have is a `std::length_error`, which
nothing catches. -/
def parseSpan (rawHttpRequest : Bytes) (packet : Span) :
    Except Fault (Option HttpRequest × Bytes) :=
  if 2 ^ 63 ≤ packet.size then .error .terminate
  else if packet.data.length < packet.size then .error .outOfRange
  else parsePacket rawHttpRequest (packet.data.take packet.size)

/-- The body of `handle_client`'s loop, from the completion of its recv on; `ServeHTTP` returns. -/
def handleClientTurn (h : Handler) (cqeRes : Int32) (cqeFlags : UInt32) : Except Fault Turn :=
  let (recvBufferId, recvBufferSize) := recvAwaitResume cqeRes cqeFlags
  if recvBufferSize = 0 then
    .ok ⟨h, [], [], [], true⟩
  else if h.buffers.bufferList.length ≤ recvBufferId.toNat then
    .error .outOfRange
  else do
    let borrowed := h.buffers.borrowBuffer recvBufferId.toNat (toSizeT recvBufferSize)
    let (parseResult, raw) ← parseSpan h.rawHttpRequest borrowed.2
    return {
      handler := ⟨raw, borrowed.1.returnBuffer recvBufferId.toNat, h.sized⟩
      packets := [borrowed.2.data.take borrowed.2.size]
      requests := parseResult.toList
      returned := [recvBufferId.toNat]
      leaves := false }

section Turn

variable {h : Handler} {cqeRes : Int32} {cqeFlags : UInt32}

/-- **A result of zero leaves the loop**, whatever the flags are. -/
theorem handleClientTurn_of_zero (hres : cqeRes.toInt = 0) :
    handleClientTurn h cqeRes cqeFlags = .ok ⟨h, [], [], [], true⟩ := by
  rw [handleClientTurn, recvAwaitResume_eq]
  exact if_pos hres

/-- A negative result is a size beyond every string. -/
theorem le_toSizeT_of_neg (hneg : cqeRes.toInt < 0) : 2 ^ 63 ≤ toSizeT cqeRes.toInt := by
  have hlow := cqeRes.le_toInt
  rw [toSizeT]
  omega

theorem toSizeT_of_nonneg (hres : 0 ≤ cqeRes.toInt) :
    toSizeT cqeRes.toInt = cqeRes.toInt.toNat := by
  have hhigh := cqeRes.toInt_lt
  rw [toSizeT]
  omega

/-- **A turn that does not leave at once stays in the loop, or does not return.** -/
theorem leaves_of_handleClientTurn {turn : Turn} (hres : cqeRes.toInt ≠ 0)
    (hturn : handleClientTurn h cqeRes cqeFlags = .ok turn) : turn.leaves = false := by
  rw [handleClientTurn, recvAwaitResume_eq] at hturn
  simp only [if_neg hres] at hturn
  split at hturn
  · cases hturn
  · obtain ⟨p, -, hp⟩ := bind_eq_ok hturn
    rw [← Except.ok.inj hp]

/-- **A negative result does not return.** -/
theorem handleClientTurn_of_neg (hneg : cqeRes.toInt < 0) :
    ∃ fault, handleClientTurn h cqeRes cqeFlags = .error fault := by
  rw [handleClientTurn, recvAwaitResume_eq]
  simp only [if_neg hneg.ne]
  split
  · exact ⟨_, rfl⟩
  · refine ⟨.terminate, ?_⟩
    have hparse : parseSpan h.rawHttpRequest
        (h.buffers.borrowBuffer (cqeFlags >>> ioringCqeBufferShift).toNat
          (toSizeT cqeRes.toInt)).2 = .error .terminate := if_pos (le_toSizeT_of_neg hneg)
    rw [hparse]
    rfl

end Turn

/-! ## Handled by what it carries -/

/-- A recv completion of the kernel: it selects a buffer only with the flag, and then one of the
ring with data in it. -/
structure RecvCompletion (h : Handler) where
  res : Int32
  flags : UInt32
  selects : flags &&& ioringCqeFBuffer ≠ 0 → 1 ≤ res.toInt ∧ res.toInt ≤ bufferSize ∧
    (flags >>> ioringCqeBufferShift).toNat < h.buffers.bufferList.length

namespace RecvCompletion

variable {h : Handler} (c : RecvCompletion h)

abbrev CarriesBuffer : Prop := c.flags &&& ioringCqeFBuffer ≠ 0

def bufferId : ℕ := (c.flags >>> ioringCqeBufferShift).toNat

/-- The first `res` bytes of the buffer it names. -/
def packet : Bytes := (h.buffers.bufferList.getD c.bufferId []).take c.res.toInt.toNat

/-- **A completion is handled by what it carries**: with a buffer, its bytes go to the parser and
its id goes back, both once; without one, the handler leaves and touches nothing. -/
def Handled : Prop :=
  ∃ turn, handleClientTurn h c.res c.flags = .ok turn ∧
    (c.CarriesBuffer → turn.packets = [c.packet] ∧ turn.returned = [c.bufferId]) ∧
    (¬ c.CarriesBuffer → turn.leaves = true ∧ turn.handler = h)

/-- The text the parser has with this packet is complete, and its request line has fewer than three
tokens. -/
def CompletesMalformed : Prop :=
  let text := cStringView (h.rawHttpRequest ++ c.packet)
  crlfcrlf <:+ text ∧ (pieces [sp] ((pieces crlf text).headD [])).length < 3

/-- A text holds no request exactly when its first line is too short. -/
theorem requestOf_eq_none_iff (text : Bytes) :
    requestOf text = none ↔ (pieces [sp] ((pieces crlf text).headD [])).length < 3 := by
  rw [requestOf]
  rcases pieces [sp] ((pieces crlf text).headD []) with _ | ⟨a, _ | ⟨b, _ | ⟨c, rest⟩⟩⟩ <;> simp

/-- **A completion with a buffer**: the turn is the parser's on exactly its packet. -/
theorem handleClientTurn_of_carries (hc : c.CarriesBuffer) : handleClientTurn h c.res c.flags = do
    let (parseResult, raw) ← parsePacket h.rawHttpRequest c.packet
    return {
      handler := ⟨raw,
        (h.buffers.borrowBuffer c.bufferId c.res.toInt.toNat).1.returnBuffer c.bufferId, h.sized⟩
      packets := [c.packet]
      requests := parseResult.toList
      returned := [c.bufferId]
      leaves := false } := by
  obtain ⟨hpos, hle, hid⟩ := c.selects hc
  have hdata : (h.buffers.bufferList.getD c.bufferId []).length = bufferSize := by
    rw [bufferId, List.getD_eq_getElem?_getD, List.getElem?_eq_getElem hid, Option.getD_some]
    exact h.sized _ (List.getElem_mem hid)
  have hsize : toSizeT c.res.toInt = c.res.toInt.toNat := toSizeT_of_nonneg (by omega)
  have hparse : parseSpan h.rawHttpRequest
      (h.buffers.borrowBuffer c.bufferId c.res.toInt.toNat).2
        = parsePacket h.rawHttpRequest c.packet := by
    have hshort : c.res.toInt.toNat ≤ bufferSize := by omega
    refine (if_neg ?_).trans (if_neg ?_)
    · exact Nat.not_le.mpr (hshort.trans_lt (by decide))
    · rw [Nat.not_lt]
      exact hshort.trans_eq hdata.symm
  rw [handleClientTurn, recvAwaitResume_eq]
  simp only [if_neg (show c.res.toInt ≠ 0 by omega), if_neg (Nat.not_le.mpr hid), hsize]
  exact congrArg (· >>= _) hparse

/-- **Exactly which completions are handled by what they carry**: those with a buffer that do not
complete a malformed head, and those without one whose result is zero. -/
theorem handled_iff : c.Handled ↔
    (c.CarriesBuffer ∧ ¬ c.CompletesMalformed) ∨ (¬ c.CarriesBuffer ∧ c.res.toInt = 0) := by
  by_cases hc : c.CarriesBuffer
  · rw [or_iff_left fun h => h.1 hc, and_iff_right hc, CompletesMalformed,
      ← requestOf_eq_none_iff, Handled, c.handleClientTurn_of_carries hc, parsePacket_eq]
    by_cases hend : crlfcrlf <:+ cStringView (h.rawHttpRequest ++ c.packet)
    · cases hreq : requestOf (cStringView (h.rawHttpRequest ++ c.packet)) with
      | none =>
        refine iff_of_false ?_ fun hn => hn ⟨hend, rfl⟩
        rw [if_pos hend]
        rintro ⟨turn, hturn, -⟩
        cases hturn
      | some request =>
        rw [if_pos hend]
        refine iff_of_true ⟨_, rfl, fun _ => ⟨rfl, rfl⟩, fun hn => absurd hc hn⟩ ?_
        rintro ⟨-, hnone⟩
        cases hnone
    · rw [if_neg hend]
      exact iff_of_true ⟨_, rfl, fun _ => ⟨rfl, rfl⟩, fun hn => absurd hc hn⟩ fun hm => hend hm.1
  · rw [or_iff_right fun h => hc h.1, and_iff_right hc]
    constructor
    · rintro ⟨turn, hturn, -, hleaves⟩
      by_contra hres
      have := leaves_of_handleClientTurn hres hturn
      rw [(hleaves hc).1] at this
      cases this
    · intro hres
      exact ⟨_, handleClientTurn_of_zero hres, fun h => absurd h hc, fun _ => ⟨rfl, rfl⟩⟩

end RecvCompletion

/-! ## A reset connection -/

/-- A handler that has read nothing yet, over the buffers a worker registers. -/
def freshHandler : Handler where
  rawHttpRequest := []
  buffers := registerBufferRing ⟨fun _ => ⟨0, 0, 0⟩, 0⟩ bufferRingSize bufferSize
  sized := fun _ hbuffer => by rw [List.eq_of_mem_replicate hbuffer, List.length_replicate]

/-- `-ECONNRESET`, without a buffer. -/
def connectionReset : RecvCompletion freshHandler := ⟨-104, 0, fun h => absurd rfl h⟩

/-- **The reset is not handled as one**: it ends the whole process. -/
theorem not_handled_connectionReset : ¬ connectionReset.Handled := by
  rintro ⟨turn, hturn, -⟩
  obtain ⟨fault, hfault⟩ := @handleClientTurn_of_neg freshHandler connectionReset.res
    connectionReset.flags (by decide)
  rw [hfault] at hturn
  cases hturn

end YServer
