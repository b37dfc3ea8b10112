import YServer.BaseNet.HttpMessage
import YServer.BaseNet.Socket
import YServer.Machinery.Runs

/-!
# BaseNet/MessageStorage — who releases a message

`http_response::send` allocates the text it serializes and detaches the coroutine that sends it; "it
is `send` that should release the message".  What does so is the awaiter, after each submission:

    allocated ──submit 0──▸ ──result──▸ delete 0 ──▸ ret             result < 0, or all of it
                                            └──▸ submit k ──▸ ──▸ delete k ──▸ …        short

Its owner is the whole loop, though.  One submission is the only case in which the storage is
neither submitted nor released after it has been released (`outlivesSend_iff`).
-/

namespace YServer

open Machinery

/-- The characters of a message, allocated at offset 0. -/
structure MessageStorage where
  released : Bool
  deriving DecidableEq, Repr

namespace MessageStorage

/-- What a coroutine that owns the storage may do with it: submit it until it is released, and
release it once, at the address it was allocated at. -/
def use (storage : MessageStorage) : SendEvent → Option MessageStorage
  | .submit _ _ _ => if storage.released then none else some storage
  | .release offset => if storage.released ∨ offset ≠ 0 then none else some ⟨true⟩
  | .complete _ => some storage
  | .ret _ => some storage

end MessageStorage

/-- The storage from its allocation on. -/
def messageSystem : System MessageStorage SendEvent where
  init := ⟨false⟩
  step := MessageStorage.use

/-- **The message outlives its send**: a run uses the storage as it may, and has released it when it
returns. -/
def OutlivesSend (trace : List SendEvent) : Prop :=
  ∃ storage, messageSystem.run trace = some storage ∧
    ∀ value, .ret value ∈ trace → storage.released

section Turns

variable {fd : ℤ} {length : ℕ} {result : ℤ} {results : List ℤ}

/-- A coroutine that has not been resumed has done no harm. -/
theorem outlivesSend_suspended (fd : ℤ) (length : ℕ) :
    OutlivesSend (sendTrace fd length (.awaiting 0) []) :=
  ⟨⟨false⟩, rfl, by simp [sendTrace]⟩

/-- **One submission is released once.** -/
theorem outlivesSend_of_returned {value : ℤ} (h : sendResumed length 0 result = .returned value) :
    OutlivesSend (sendTrace fd length (.awaiting 0) (result :: results)) := by
  rw [sendTrace, h, sendTrace]
  exact ⟨⟨true⟩, rfl, fun _ _ => rfl⟩

/-- **A second one has nothing to send any more**, whatever comes of it. -/
theorem not_outlivesSend_of_awaiting {bytesSent : ℕ}
    (h : sendResumed length 0 result = .awaiting bytesSent) :
    ¬ OutlivesSend (sendTrace fd length (.awaiting 0) (result :: results)) := by
  rintro ⟨storage, hrun, -⟩
  rw [sendTrace, h] at hrun
  cases results <;> cases hrun

/-- A message of no bytes is never submitted, so nothing releases it. -/
theorem not_outlivesSend_nil (fd : ℤ) (results : List ℤ) :
    ¬ OutlivesSend (sendTrace fd 0 (sendTurn 0 0) results) := by
  rintro ⟨storage, hrun, hreleased⟩
  rw [sendTurn_of_le (Nat.le_refl 0), sendTrace] at hrun hreleased
  obtain rfl := Option.some.inj hrun
  exact absurd (hreleased 0 (by simp)) (by decide)

end Turns

/-- A message of `http_response::send` has some bytes. -/
theorem HttpResponse.send_ne_nil (r : HttpResponse) (body : Bytes) : (r.send body).2 ≠ [] := by
  simp [HttpResponse.send, HttpResponse.serialize]

/-- **A message outlives its send exactly if it is not empty and its first result, once it is there,
ends the loop**: it is an error or all of the message. -/
theorem outlivesSend_iff {message : Bytes} (run : SendRun message) : OutlivesSend run.trace ↔
    message ≠ [] ∧ ∀ result ∈ run.results.head?, result < 0 ∨ result = message.length := by
  obtain ⟨fd, results, trace, hruns, hanswers⟩ := run
  obtain rfl : sendTrace fd message.length (sendTurn message.length 0) results = trace :=
    Except.ok.inj hruns
  change OutlivesSend (sendTrace fd message.length (sendTurn message.length 0) results)
    ↔ message ≠ [] ∧ ∀ result ∈ results.head?, result < 0 ∨ result = message.length
  rcases eq_or_ne message [] with rfl | hne
  · exact iff_of_false (not_outlivesSend_nil fd results) fun h => h.1 rfl
  rw [sendTurn_of_lt (List.length_pos_iff.mpr hne)] at hanswers ⊢
  cases results with
  | nil => exact iff_of_true (outlivesSend_suspended fd message.length) ⟨hne, by simp⟩
  | cons result results =>
    have hle : result ≤ message.length := hanswers.rel
    have hcondition : (message ≠ [] ∧ ∀ r ∈ (result :: results).head?, r < 0 ∨ r = message.length)
        ↔ result < 0 ∨ result = message.length := by simp [hne]
    rw [hcondition]
    rcases lt_or_ge result 0 with hneg | hnonneg
    · exact iff_of_true (outlivesSend_of_returned (sendResumed_of_neg hneg)) (Or.inl hneg)
    rcases hle.lt_or_eq with hlt | rfl
    · have hturn : sendResumed message.length 0 result = .awaiting result.toNat := by
        rw [sendResumed_of_nonneg hnonneg, Nat.zero_add, sendTurn_of_lt (by omega)]
      exact iff_of_false (not_outlivesSend_of_awaiting hturn) (by omega)
    · have hturn : sendResumed message.length 0 message.length = .returned message.length := by
        rw [sendResumed_of_nonneg hnonneg, Nat.zero_add, Int.toNat_natCast,
          sendTurn_of_le (Nat.le_refl _)]
      exact iff_of_true (outlivesSend_of_returned hturn) (Or.inr rfl)

/-- What `send("hi")` of a new response sends. -/
def hiMessage : Bytes := (HttpResponse.new.send (ascii "hi")).2

theorem length_hiMessage : hiMessage.length = 39 := by decide

/-- The kernel takes the first thirteen bytes of it, and then the others. -/
def twoWrites : SendRun hiMessage where
  rawFileDescriptor := 5
  results := [13, 26]
  trace := [.submit 5 0 39, .complete 13, .release 0, .submit 5 13 39, .complete 26, .release 13,
    .ret 39]
  runs := by rw [length_hiMessage]; rfl
  answers := by simp [Answers]

/-- The storage is submitted after its release, and released again thirteen bytes further on. -/
theorem not_outlivesSend_twoWrites : ¬ OutlivesSend twoWrites.trace := by
  rintro ⟨storage, hrun, -⟩
  cases hrun

end YServer
