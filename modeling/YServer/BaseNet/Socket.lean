import YServer.BaseNet.Basic
import Mathlib.Data.Int.Order.Basic
import Mathlib.Data.List.Chain
import Mathlib.Order.Lattice

/-!
# BaseNet/Socket — the loop of `client_socket::send`

The coroutine submits, suspends, and on the kernel's result either returns or submits again:

    turn ──bytes_sent < length──▶ submit(bytes_sent, length) ──result──▶ delete ──≥ 0──▶ turn
      │                                                                    └────< 0──▶ return -1
      └──────────otherwise──────▶ return bytes_sent

Two things of the source decide what reaches the wire.  Every submission asks for `length` bytes,
the later ones too, from further on in the buffer; and the awaiter gives the storage back after the
first result.  So the loop transmits its message exactly when it never needs a second turn for data
(`transmitsExactly_iff`).
-/

namespace YServer

/-! ## The coroutine -/

/-- Where the coroutine stands: suspended in its awaiter, or at its end. -/
inductive SendPoint
  | awaiting (bytesSent : ℕ)
  | returned (value : ℤ)
  deriving DecidableEq, Repr

/-- The test of the loop. -/
def sendTurn (length bytesSent : ℕ) : SendPoint :=
  if bytesSent < length then .awaiting bytesSent else .returned bytesSent

/-- The rest of a turn, from the result on. -/
def sendResumed (length bytesSent : ℕ) (result : ℤ) : SendPoint :=
  if result < 0 then .returned (-1) else sendTurn length (bytesSent + result.toNat)

/-- What a run of the coroutine shows: addresses are offsets in the buffer. -/
inductive SendEvent
  /-- `submit_send_request` of `length` bytes at `offset`. -/
  | submit (rawFileDescriptor : ℤ) (offset length : ℕ)
  /-- The kernel's result for the last submission. -/
  | complete (result : ℤ)
  /-- `delete buffer_.data()`. -/
  | release (offset : ℕ)
  | ret (value : ℤ)
  deriving DecidableEq, Repr

/-- The run from a point on, over the results the kernel gives; it breaks off where there is none.
-/
def sendTrace (rawFileDescriptor : ℤ) (length : ℕ) : SendPoint → List ℤ → List SendEvent
  | .returned value, _ => [.ret value]
  | .awaiting bytesSent, [] => [.submit rawFileDescriptor bytesSent length]
  | .awaiting bytesSent, result :: results =>
    .submit rawFileDescriptor bytesSent length :: .complete result :: .release bytesSent ::
      sendTrace rawFileDescriptor length (sendResumed length bytesSent result) results

/-- `client_socket::send`. -/
def send (rawFileDescriptor : Option ℤ) (length : ℕ) (results : List ℤ) :
    Except Fault (List SendEvent) :=
  match rawFileDescriptor with
  | none => .error .terminate
  | some fd => .ok (sendTrace fd length (sendTurn length 0) results)

section Api

variable {fd : ℤ} {length bytesSent : ℕ} {result : ℤ}

theorem sendTurn_of_lt (h : bytesSent < length) : sendTurn length bytesSent = .awaiting bytesSent :=
  if_pos h

theorem sendTurn_of_le (h : length ≤ bytesSent) : sendTurn length bytesSent = .returned bytesSent :=
  if_neg h.not_gt

theorem sendResumed_of_neg (h : result < 0) :
    sendResumed length bytesSent result = .returned (-1) :=
  if_pos h

theorem sendResumed_of_nonneg (h : 0 ≤ result) :
    sendResumed length bytesSent result = sendTurn length (bytesSent + result.toNat) :=
  if_neg h.not_gt

/-- The coroutine goes round for what the kernel has not taken… -/
theorem sendResumed_eq_awaiting {offset : ℕ}
    (h : sendResumed length bytesSent result = .awaiting offset) :
    0 ≤ result ∧ offset = bytesSent + result.toNat ∧ offset < length := by
  have hpos : 0 ≤ result := Int.not_lt.mp fun hneg => by
    cases (sendResumed_of_neg hneg).symm.trans h
  rw [sendResumed_of_nonneg hpos] at h
  have hlt : bytesSent + result.toNat < length := Nat.lt_of_not_le fun hle => by
    cases (sendTurn_of_le hle).symm.trans h
  rw [sendTurn_of_lt hlt] at h
  obtain rfl := SendPoint.awaiting.inj h
  exact ⟨hpos, rfl, hlt⟩

/-- …and ends with an error or when it has taken enough. -/
theorem sendResumed_eq_returned {value : ℤ}
    (h : sendResumed length bytesSent result = .returned value) (hpos : 0 ≤ result) :
    length ≤ bytesSent + result.toNat := by
  rw [sendResumed_of_nonneg hpos] at h
  by_contra hlt
  cases (sendTurn_of_lt (Nat.lt_of_not_le hlt)).symm.trans h

end Api

/-! ## What the kernel and the wire make of a run -/

/-- A result is at most the length of the submission it answers. -/
def Answers : SendEvent → SendEvent → Prop
  | .submit _ _ length, .complete result => result ≤ length
  | _, _ => True

/-- The submitted region lies in a buffer of this size. -/
def SendEvent.Inside (size : ℕ) : SendEvent → Prop
  | .submit _ offset length => offset + length ≤ size
  | _ => True

/-- The bytes put on the wire: a positive result is so many bytes of the last submitted region.
`memory` is what the addresses read after so many releases. -/
def transmitted (memory : ℕ → ℕ → Byte) : ℕ → ℕ → List SendEvent → Bytes
  | _, _, [] => []
  | releases, _, .submit _ offset _ :: trace => transmitted memory releases offset trace
  | releases, offset, .complete result :: trace =>
    (List.range result.toNat).map (fun i => memory releases (offset + i))
      ++ transmitted memory releases offset trace
  | releases, offset, .release _ :: trace => transmitted memory (releases + 1) offset trace
  | releases, offset, .ret _ :: trace => transmitted memory releases offset trace

/-- Up to the first release the addresses read the buffer; afterwards, anything. -/
def Holds (buffer : Bytes) (memory : ℕ → ℕ → Byte) : Prop :=
  ∀ i < buffer.length, memory 0 i = buffer.getD i 0

/-- A run of `send` over a buffer, with results the kernel may give. -/
structure SendRun (buffer : Bytes) where
  rawFileDescriptor : ℤ
  results : List ℤ
  trace : List SendEvent
  runs : send (some rawFileDescriptor) buffer.length results = .ok trace
  answers : trace.IsChain Answers

/-- **Exactly the message**: every submitted region lies in the buffer, and a run that returns
without a negative result has put the buffer on the wire and returns its length. -/
structure TransmitsExactly {buffer : Bytes} (run : SendRun buffer) : Prop where
  inside : ∀ event ∈ run.trace, event.Inside buffer.length
  wire : ∀ memory, Holds buffer memory → ∀ count : ℤ, .ret count ∈ run.trace → 0 ≤ count →
    transmitted memory 0 0 run.trace = buffer ∧ count = buffer.length

/-! ## One turn -/

section Turns

variable {buffer : Bytes} {fd : ℤ} {results : List ℤ}

/-- Reading as many addresses as the buffer is long gives the buffer. -/
theorem map_memory_range {memory : ℕ → ℕ → Byte} (h : Holds buffer memory) :
    (List.range buffer.length).map (memory 0) = buffer := by
  refine List.ext_getElem (by rw [List.length_map, List.length_range]) fun i hi hb => ?_
  rw [List.getElem_map, List.getElem_range, h i hb, List.getD_eq_getElem?_getD,
    List.getElem?_eq_getElem hb, Option.getD_some]

/-- **A first result for the whole length ends the run**, with the buffer on the wire. -/
theorem sendTrace_whole (fd : ℤ) (results : List ℤ) (hne : buffer ≠ []) :
    sendTrace fd buffer.length (sendTurn buffer.length 0) (buffer.length :: results)
      = [.submit fd 0 buffer.length, .complete buffer.length, .release 0, .ret buffer.length] := by
  rw [sendTurn_of_lt (List.length_pos_iff.mpr hne), sendTrace,
    sendResumed_of_nonneg (Int.natCast_nonneg _), Int.toNat_natCast, Nat.zero_add,
    sendTurn_of_le le_rfl, sendTrace]

/-- …so does one behind releases, but what was on the wire is then no longer the buffer. -/
theorem not_forall_transmitted_stale (hne : buffer ≠ []) {releases : ℕ} (hrel : 0 < releases) :
    ∃ memory, Holds buffer memory ∧
      (List.range buffer.length).map (fun i => memory releases (0 + i)) ≠ buffer := by
  refine ⟨fun k i => if k = 0 then buffer.getD i 0 else buffer.getD i 0 + 1,
    fun i _ => if_pos rfl, fun h => ?_⟩
  have hpos := List.length_pos_iff.mpr hne
  have h0 := congrArg (fun l : Bytes => l.getD 0 0) h
  simp only [hrel.ne', if_false, Nat.zero_add] at h0
  rw [List.getD_eq_getElem?_getD, List.getElem?_map, List.getElem?_range hpos, Option.map_some,
    Option.getD_some] at h0
  exact absurd h0 (by simp)

/-- A turn in which the kernel takes nothing leaves the loop where it was. -/
theorem sendTrace_idle (hne : buffer ≠ []) :
    sendTrace fd buffer.length (.awaiting 0) (0 :: results)
      = .submit fd 0 buffer.length :: .complete 0 :: .release 0 ::
        sendTrace fd buffer.length (.awaiting 0) results := by
  have hturn : sendResumed buffer.length 0 0 = .awaiting 0 := by
    rw [sendResumed_of_nonneg le_rfl]
    exact sendTurn_of_lt (List.length_pos_iff.mpr hne)
  rw [sendTrace, hturn]

/-- **A short positive result submits a region that sticks out of the buffer.** -/
theorem not_inside_of_short {result : ℤ} (hpos : 0 < result) (hlt : result < buffer.length) :
    ¬ ∀ event ∈ sendTrace fd buffer.length (.awaiting 0) (result :: results),
      event.Inside buffer.length := by
  intro h
  have hturn : sendResumed buffer.length 0 result = .awaiting result.toNat := by
    rw [sendResumed_of_nonneg hpos.le, Nat.zero_add, sendTurn_of_lt (by omega)]
  have hmem : SendEvent.submit fd result.toNat buffer.length
      ∈ sendTrace fd buffer.length (.awaiting 0) (result :: results) := by
    rw [sendTrace, hturn]
    cases results <;> simp [sendTrace]
  have := h _ hmem
  simp only [SendEvent.Inside] at this
  omega

/-! ## Runs of turns -/

/-- **Once the storage is released only results without data are harmless** — by induction on the
results, each of which leaves the loop where it was. -/
theorem forall_eq_zero_of_stale (hne : buffer ≠ []) : ∀ {results : List ℤ} {releases : ℕ},
    0 < releases →
    (sendTrace fd buffer.length (.awaiting 0) results).IsChain Answers →
    (∀ event ∈ sendTrace fd buffer.length (.awaiting 0) results, event.Inside buffer.length) →
    (∀ memory, Holds buffer memory → ∀ count : ℤ,
      .ret count ∈ sendTrace fd buffer.length (.awaiting 0) results → 0 ≤ count →
      transmitted memory releases 0 (sendTrace fd buffer.length (.awaiting 0) results) = buffer) →
    ∀ result ∈ results.takeWhile (0 ≤ ·), result = 0 := by
  intro results
  induction results with
  | nil => intro _ _ _ _ _ result h; cases h
  | cons result results ih =>
    intro releases hrel hanswers hinside hwire
    have hle : result ≤ buffer.length := hanswers.rel
    rcases lt_trichotomy result 0 with hneg | rfl | hpos
    · rw [List.takeWhile_cons_of_neg (by simpa using hneg)]
      exact List.forall_mem_nil _
    · -- no data: the loop goes round with one release more
      rw [sendTrace_idle hne] at hanswers hinside hwire
      rw [List.takeWhile_cons_of_pos (by decide)]
      refine List.forall_mem_cons.mpr ⟨rfl, ih (Nat.succ_pos releases) ?_ ?_ ?_⟩
      · exact hanswers.tail.tail.tail
      · exact fun event h => hinside event (by simp [h])
      · intro memory hmem count hret hcount
        simpa [transmitted] using hwire memory hmem count (by simp [hret]) hcount
    · rcases hle.lt_or_eq with hlt | rfl
      · exact absurd hinside (not_inside_of_short hpos hlt)
      · have htrace := sendTrace_whole fd results hne
        rw [sendTurn_of_lt (List.length_pos_iff.mpr hne)] at htrace
        obtain ⟨memory, hmem, hdiff⟩ := not_forall_transmitted_stale hne hrel
        have h := hwire memory hmem buffer.length (by simp [htrace]) (Int.natCast_nonneg _)
        rw [htrace] at h
        simp only [transmitted, List.append_nil, Int.toNat_natCast] at h
        exact absurd h hdiff

/-- **From the buffer as the caller filled it**, the first result may also be the whole length. -/
theorem head_or_zero_of_inside (hne : buffer ≠ [])
    (hanswers : (sendTrace fd buffer.length (.awaiting 0) results).IsChain Answers)
    (hinside : ∀ event ∈ sendTrace fd buffer.length (.awaiting 0) results,
      event.Inside buffer.length)
    (hwire : ∀ memory, Holds buffer memory → ∀ count : ℤ,
      .ret count ∈ sendTrace fd buffer.length (.awaiting 0) results → 0 ≤ count →
      transmitted memory 0 0 (sendTrace fd buffer.length (.awaiting 0) results) = buffer) :
    results.head? = some (buffer.length : ℤ) ∨
      ∀ result ∈ results.takeWhile (0 ≤ ·), result = 0 := by
  cases results with
  | nil => exact Or.inr (List.forall_mem_nil _)
  | cons result results =>
    have hle : result ≤ buffer.length := hanswers.rel
    rcases lt_trichotomy result 0 with hneg | rfl | hpos
    · refine Or.inr ?_
      rw [List.takeWhile_cons_of_neg (by simpa using hneg)]
      exact List.forall_mem_nil _
    · refine Or.inr ?_
      rw [sendTrace_idle hne] at hanswers hinside hwire
      rw [List.takeWhile_cons_of_pos (by decide)]
      refine List.forall_mem_cons.mpr
        ⟨rfl, forall_eq_zero_of_stale hne Nat.one_pos hanswers.tail.tail.tail ?_ ?_⟩
      · exact fun event h => hinside event (by simp [h])
      · intro memory hmem count hret hcount
        simpa [transmitted] using hwire memory hmem count (by simp [hret]) hcount
    · rcases hle.lt_or_eq with hlt | rfl
      · exact absurd hinside (not_inside_of_short hpos hlt)
      · exact Or.inl rfl

/-- **Results without data, then a negative one**: all regions lie in the buffer, and nothing is
returned but the error. -/
theorem harmless_of_forall_eq_zero (fd : ℤ) (hne : buffer ≠ []) : ∀ {results : List ℤ},
    (∀ result ∈ results.takeWhile (0 ≤ ·), result = 0) →
    (∀ event ∈ sendTrace fd buffer.length (.awaiting 0) results, event.Inside buffer.length) ∧
      ∀ count : ℤ, .ret count ∈ sendTrace fd buffer.length (.awaiting 0) results → count < 0 := by
  intro results
  have hsubmit : (SendEvent.submit fd 0 buffer.length).Inside buffer.length := by
    simp [SendEvent.Inside]
  induction results with
  | nil =>
    intro _
    rw [sendTrace]
    exact ⟨List.forall_mem_singleton.mpr hsubmit, by simp⟩
  | cons result results ih =>
    intro hzero
    rcases lt_or_ge result 0 with hneg | hnonneg
    · rw [sendTrace, sendResumed_of_neg hneg, sendTrace]
      exact ⟨by simp [SendEvent.Inside], by simp⟩
    · rw [List.takeWhile_cons_of_pos (by simpa using hnonneg)] at hzero
      obtain ⟨rfl, hrest⟩ := List.forall_mem_cons.mp hzero
      obtain ⟨hinside, hret⟩ := ih hrest
      rw [sendTrace_idle hne]
      constructor
      · intro event h
        rcases List.mem_cons.mp h with rfl | h
        · exact hsubmit
        · rcases List.mem_cons.mp h with rfl | h
          · trivial
          · rcases List.mem_cons.mp h with rfl | h
            · trivial
            · exact hinside event h
      · exact fun count h => hret count (by simpa using h)

end Turns

/-! ## Exactly the message -/

/-- **The loop transmits exactly its message if and only if no result makes it send a second
region** — the message is empty, or the first result is its whole length, or no data is taken
before an error. -/
theorem transmitsExactly_iff {buffer : Bytes} (run : SendRun buffer) : TransmitsExactly run ↔
    buffer = [] ∨ run.results.head? = some (buffer.length : ℤ) ∨
      ∀ result ∈ run.results.takeWhile (0 ≤ ·), result = 0 := by
  obtain ⟨fd, results, trace, hruns, hanswers⟩ := run
  obtain rfl : sendTrace fd buffer.length (sendTurn buffer.length 0) results = trace :=
    Except.ok.inj hruns
  rcases eq_or_ne buffer [] with rfl | hne
  · refine iff_of_true ⟨?_, ?_⟩ (Or.inl rfl)
    · simp [sendTrace, sendTurn, SendEvent.Inside]
    · simp [sendTrace, sendTurn, transmitted]
  have hpos := List.length_pos_iff.mpr hne
  have hturn : sendTurn buffer.length 0 = .awaiting 0 := sendTurn_of_lt hpos
  constructor
  · rintro ⟨hinside, hwire⟩
    simp only [hturn] at hinside hwire hanswers
    exact Or.inr (head_or_zero_of_inside hne hanswers hinside fun memory hmem count hret hcount =>
      (hwire memory hmem count hret hcount).1)
  · rintro (rfl | hhead | hzero)
    · exact absurd rfl hne
    · obtain ⟨rest, rfl⟩ := List.head?_eq_some_iff.mp hhead
      have htrace := sendTrace_whole fd rest hne
      constructor
      · simp [htrace, SendEvent.Inside]
      · intro memory hmem count hret _
        simp only [htrace] at hret ⊢
        refine ⟨?_, by simpa using hret⟩
        simpa [transmitted] using map_memory_range hmem
    · have hharmless := harmless_of_forall_eq_zero fd hne hzero
      rw [← hturn] at hharmless
      exact ⟨hharmless.1,
        fun _ _ count hret hcount => absurd (hharmless.2 count hret) hcount.not_gt⟩

/-! ## A short write -/

/-- Ten bytes, of which the kernel takes three. -/
def shortWrite : SendRun (ascii "0123456789") where
  rawFileDescriptor := 5
  results := [3]
  trace := [.submit 5 0 10, .complete 3, .release 0, .submit 5 3 10]
  runs := rfl
  answers := by simp [Answers]

/-- **The second submission reads three bytes past the end.** -/
theorem not_transmitsExactly_shortWrite : ¬ TransmitsExactly shortWrite := by
  intro h
  have hsecond : 3 + 10 ≤ 10 := h.inside (.submit 5 3 10) (by decide)
  exact absurd hsecond (by decide)

end YServer
