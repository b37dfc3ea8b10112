import YServer.BaseNet.Basic
import YServer.Machinery.Runs
import Mathlib.Data.List.Basic

/-!
# BaseNet/Splice — copying through a pipe

`splice` moves bytes from one descriptor into a pipe and from the pipe to another descriptor, and
counts what arrives there:

    input ──submit_splice_request(length)──▸ pipe ──submit_splice_request(length)──▸ output
                                                                                       │
                  bytes_sent < length  ◂─────────────── bytes_sent += result ◂─────────┘

Nothing is lost or reordered on the way (`SpliceState.Conserved`).  But every transfer asks for
`length` bytes, the later ones too, so once a first one was short the loop may take more than it was
asked for; and that is all that can go wrong (`copiesPrefix_iff`).
-/

namespace YServer

open Machinery

/-! ## The coroutine -/

/-- Where the coroutine stands: suspended in one of its two awaiters, or at its end. -/
inductive SplicePoint
  | intoPipe
  | outOfPipe
  | returned (value : ℤ)
  deriving DecidableEq, Repr

/-- The bytes not read yet, those in the pipe, those written, and the loop's count of them. -/
structure SpliceState where
  point : SplicePoint
  input : Bytes
  pipe : Bytes
  output : Bytes
  bytesSent : ℕ
  deriving DecidableEq, Repr

/-- The kernel's result for the transfer the coroutine awaits. -/
inductive SpliceResult
  | moved (bytes : ℕ)
  | failed (errno : ℕ)
  deriving DecidableEq, Repr

/-- A `cqe_res` is an `int`. -/
def intMax : ℕ := UInt32.size / 2 - 1

/-- The test of the loop. -/
def spliceTurn (length bytesSent : ℕ) : SplicePoint :=
  if bytesSent < length then .intoPipe else .returned bytesSent

namespace SpliceState

variable (length : ℕ) (s : SpliceState)

/-- The kernel moves bytes from the input, unless there are none, no more than asked for and no more
than there are… -/
def MovesIn (bytes : ℕ) : Prop :=
  bytes ≤ requestedBytes length ∧ bytes ≤ intMax ∧ bytes ≤ s.input.length ∧
    (0 < bytes ∨ s.input = [])

/-- …and from the pipe, for some of which it waits. -/
def MovesOut (bytes : ℕ) : Prop :=
  bytes ≤ requestedBytes length ∧ bytes ≤ intMax ∧ bytes ≤ s.pipe.length ∧ 0 < bytes

instance (bytes : ℕ) : Decidable (s.MovesIn length bytes) :=
  inferInstanceAs (Decidable (_ ∧ _ ∧ _ ∧ _))

instance (bytes : ℕ) : Decidable (s.MovesOut length bytes) :=
  inferInstanceAs (Decidable (_ ∧ _ ∧ _ ∧ _))

/-- The coroutine goes on with a result. -/
def step : SpliceResult → Option SpliceState
  | .moved bytes =>
    match s.point with
    | .intoPipe =>
      if s.MovesIn length bytes then
        some { s with
          point := .outOfPipe
          input := s.input.drop bytes
          pipe := s.pipe ++ s.input.take bytes }
      else none
    | .outOfPipe =>
      if s.MovesOut length bytes then
        some { s with
          point := spliceTurn length (s.bytesSent + bytes)
          pipe := s.pipe.drop bytes
          output := s.output ++ s.pipe.take bytes
          bytesSent := s.bytesSent + bytes }
      else none
    | .returned _ => none
  | .failed _ =>
    match s.point with
    | .intoPipe | .outOfPipe => some { s with point := .returned (-1) }
    | .returned _ => none

/-- The bytes taken from the input so far… -/
def taken : ℕ := s.output.length + s.pipe.length

/-- …and by a result. -/
def takenBy : SpliceResult → ℕ
  | .moved bytes => if s.point = .intoPipe then bytes else 0
  | .failed _ => 0

end SpliceState

/-- `splice`, over the results the kernel gives. -/
def spliceSystem (length : ℕ) (input : Bytes) : System SpliceState SpliceResult where
  init := ⟨spliceTurn length 0, input, [], [], 0⟩
  step := SpliceState.step length

/-- A run of `splice` that returns without an error. -/
structure SpliceRun (length : ℕ) (input : Bytes) where
  results : List SpliceResult
  final : SpliceState
  count : ℤ
  runs : (spliceSystem length input).run results = some final
  returns : final.point = .returned count
  noError : 0 ≤ count

/-- **Exactly the asked prefix**: it is what arrived, it is what is counted, and the input goes on
behind it. -/
structure CopiesPrefix {length : ℕ} {input : Bytes} (run : SpliceRun length input) : Prop where
  output_eq : run.final.output = input.take length
  count_eq : run.count = length
  input_eq : run.final.input = input.drop length

/-- The condition on a result: it takes no more from the input than is left of `length`. -/
def TakesRest (length : ℕ) (s : SpliceState) (result : SpliceResult) : Prop :=
  s.taken + s.takenBy result ≤ length

/-! ## Conservation -/

namespace SpliceState

variable {length : ℕ} {input : Bytes} {s t : SpliceState} {result : SpliceResult}

/-- **Every byte is written, in the pipe or not read yet**, in its order, and the loop returns the
number of the first ones once there are `length` of them. -/
structure Conserved (length : ℕ) (input : Bytes) (s : SpliceState) : Prop where
  bytes : s.output ++ (s.pipe ++ s.input) = input
  sent : s.bytesSent = s.output.length
  returned : ∀ count : ℤ, s.point = .returned count → 0 ≤ count →
    count = s.bytesSent ∧ length ≤ s.bytesSent

theorem returned_of_spliceTurn {bytesSent : ℕ} {count : ℤ}
    (h : spliceTurn length bytesSent = .returned count) :
    count = bytesSent ∧ length ≤ bytesSent := by
  rw [spliceTurn] at h
  split at h
  case isTrue => cases h
  case isFalse hle => exact ⟨(SplicePoint.returned.inj h).symm, Nat.not_lt.mp hle⟩

/-- What a result can do. -/
theorem step_cases (hstep : s.step length result = some t) :
    (∃ bytes, result = .moved bytes ∧ s.point = .intoPipe ∧ s.MovesIn length bytes ∧
      t = { s with
        point := .outOfPipe
        input := s.input.drop bytes
        pipe := s.pipe ++ s.input.take bytes }) ∨
    (∃ bytes, result = .moved bytes ∧ s.point = .outOfPipe ∧ s.MovesOut length bytes ∧
      t = { s with
        point := spliceTurn length (s.bytesSent + bytes)
        pipe := s.pipe.drop bytes
        output := s.output ++ s.pipe.take bytes
        bytesSent := s.bytesSent + bytes }) ∨
    (∃ errno, result = .failed errno ∧ t = { s with point := .returned (-1) }) := by
  cases result with
  | moved bytes =>
    simp only [step] at hstep
    split at hstep
    case h_1 hpoint =>
      obtain ⟨hmoves, hsome⟩ := Option.ite_none_right_eq_some.mp hstep
      exact Or.inl ⟨bytes, rfl, hpoint, hmoves, (Option.some.inj hsome).symm⟩
    case h_2 hpoint =>
      obtain ⟨hmoves, hsome⟩ := Option.ite_none_right_eq_some.mp hstep
      exact Or.inr (Or.inl ⟨bytes, rfl, hpoint, hmoves, (Option.some.inj hsome).symm⟩)
    case h_3 => cases hstep
  | failed errno =>
    simp only [step] at hstep
    split at hstep
    case h_3 => cases hstep
    all_goals exact Or.inr (Or.inr ⟨errno, rfl, (Option.some.inj hstep).symm⟩)

theorem Conserved.step (h : s.Conserved length input) (hstep : s.step length result = some t) :
    t.Conserved length input := by
  rcases step_cases hstep with ⟨bytes, -, -, -, rfl⟩ | ⟨bytes, -, -, hmoves, rfl⟩ | ⟨_, -, rfl⟩
  · refine ⟨?_, h.sent, nofun⟩
    rw [List.append_assoc, List.take_append_drop]
    exact h.bytes
  · refine ⟨?_, ?_, fun count hcount _ => returned_of_spliceTurn hcount⟩
    · rw [List.append_assoc, ← List.append_assoc (List.take _ _), List.take_append_drop]
      exact h.bytes
    · rw [List.length_append, List.length_take, Nat.min_eq_left hmoves.2.2.1, h.sent]
  · refine ⟨h.bytes, h.sent, fun count hcount hnonneg => ?_⟩
    obtain rfl := SplicePoint.returned.inj hcount
    exact absurd hnonneg (by decide)

theorem conserved_init : (spliceSystem length input).init.Conserved length input where
  bytes := rfl
  sent := rfl
  returned _ h _ := returned_of_spliceTurn h

theorem taken_of_step (hstep : s.step length result = some t) :
    t.taken = s.taken + s.takenBy result := by
  rcases step_cases hstep with
    ⟨bytes, rfl, hpoint, hmoves, rfl⟩ | ⟨bytes, rfl, hpoint, hmoves, rfl⟩ | ⟨errno, rfl, rfl⟩
  · have hle := hmoves.2.2.1
    simp only [taken, takenBy, hpoint, if_true, List.length_append, List.length_take]
    omega
  · have hle := hmoves.2.2.1
    simp only [taken, takenBy, hpoint, reduceCtorEq, if_false, List.length_append,
      List.length_take, List.length_drop]
    omega
  · rfl

/-- What is taken and what is not read yet make up the input. -/
theorem Conserved.taken_add (h : s.Conserved length input) :
    s.taken + s.input.length = input.length := by
  rw [← h.bytes, taken, List.length_append, List.length_append, Nat.add_assoc]

end SpliceState

/-! ## Exactly the asked prefix -/

section Copies

variable {length : ℕ} {input : Bytes}

open SpliceState

/-- **A run that returns has taken as much as was asked for, or more**, as all its results met the
condition or not. -/
theorem taken_le_or_lt (run : SpliceRun length input) :
    ((run.final.Conserved length input ∧ run.final.taken ≤ length) ∧
        ∀ m ∈ (spliceSystem length input).moves run.results, TakesRest length m.src m.act) ∨
      (run.final.Conserved length input ∧ length < run.final.taken) ∧
        ¬ ∀ m ∈ (spliceSystem length input).moves run.results, TakesRest length m.src m.act := by
  refine System.inv_or_broken_of_run (S := spliceSystem length input)
    (fun s => s.Conserved length input ∧ s.taken ≤ length)
    (fun s => s.Conserved length input ∧ length < s.taken) ⟨conserved_init, Nat.zero_le _⟩
    (fun s result t hs hstep hrest => ⟨hs.1.step hstep, ?_⟩)
    (fun s result t hs hstep hmiss => ⟨hs.1.step hstep, ?_⟩)
    (fun s result t hs hstep => ⟨hs.1.step hstep, ?_⟩) run.runs
  · rw [taken_of_step hstep]
    exact hrest
  · rw [taken_of_step hstep]
    exact Nat.not_le.mp hmiss
  · rw [taken_of_step hstep]
    exact Nat.lt_of_lt_of_le hs.2 (Nat.le_add_right _ _)

/-- All that was taken is written then, and there are `length` bytes of it. -/
theorem copiesPrefix_of_taken_le (run : SpliceRun length input)
    (hs : run.final.Conserved length input) (hle : run.final.taken ≤ length) :
    CopiesPrefix run := by
  obtain ⟨hcount, hsent⟩ := hs.returned run.count run.returns run.noError
  rw [hs.sent] at hcount hsent
  rw [taken] at hle
  have hpipe : run.final.pipe = [] := List.length_eq_zero_iff.mp (by omega)
  have hlength : run.final.output.length = length := by omega
  have hinput : run.final.output ++ run.final.input = input := by
    have h := hs.bytes
    rwa [hpipe, List.nil_append] at h
  refine ⟨?_, hcount.trans (congrArg Nat.cast hlength), ?_⟩
  · exact (List.take_left' hlength).symm.trans (congrArg (List.take length) hinput)
  · exact (List.drop_left' hlength).symm.trans (congrArg (List.drop length) hinput)

/-- **`splice` copies exactly the asked prefix if and only if no transfer takes more than is left of
it.** -/
theorem copiesPrefix_iff (run : SpliceRun length input) : CopiesPrefix run ↔
    ∀ m ∈ (spliceSystem length input).moves run.results, TakesRest length m.src m.act := by
  rcases taken_le_or_lt run with ⟨⟨hs, hle⟩, hrest⟩ | ⟨⟨hs, hlt⟩, hmiss⟩
  · exact iff_of_true (copiesPrefix_of_taken_le run hs hle) hrest
  · refine iff_of_false (fun h => ?_) hmiss
    have htaken := hs.taken_add
    rw [h.input_eq, List.length_drop] at htaken
    omega

/-- So a copy of the whole input is exact, however short its transfers are. -/
theorem copiesPrefix_whole (run : SpliceRun input.length input) : CopiesPrefix run := by
  rcases taken_le_or_lt run with ⟨⟨hs, hle⟩, -⟩ | ⟨⟨hs, hlt⟩, -⟩
  · exact copiesPrefix_of_taken_le run hs hle
  · have := hs.taken_add
    omega

/-- Six bytes, of which four are asked for: the first transfer moves one, the second all it was
asked to. -/
def shortTransfer : SpliceRun 4 (ascii "abcdef") where
  results := [.moved 1, .moved 1, .moved 4, .moved 4]
  final := ⟨.returned 5, ascii "f", [], ascii "abcde", 5⟩
  count := 5
  runs := by decide +kernel
  returns := rfl
  noError := by decide

/-- The fifth byte arrives too. -/
theorem not_copiesPrefix_shortTransfer : ¬ CopiesPrefix shortTransfer := by
  intro h
  exact absurd h.count_eq (by decide)

end Copies

end YServer
