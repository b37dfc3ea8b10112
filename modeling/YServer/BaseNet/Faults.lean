import YServer.BaseNet.HandleClient
import YServer.BaseNet.SocketLifetime
import YServer.BaseNet.SubmissionQueue

/-!
# BaseNet/Faults — what ends a worker

A worker ends where a coroutine does something its code does not survive, or where the submission
fails.  The first can be read off the completion, before the coroutine runs:

    accept      the accept coroutine was destroyed before           deadCoroutine
    recv        the result is negative                              terminate
                the packet completes a head of a malformed line     outOfRange
    send        its message has been released                       releasedTwice
                bytes are left to send, and the handler has left    destroyedSocket
    any         no room for the requests it leads to                nullSqe

`BaseNet/Worker` goes on where only memory is hurt, which it has none of; here the worker ends
there, too.  Then nothing else ends one, in any run (`ended_of_run`): handlers and send coroutines
are never resumed when they are gone.  What only reads released memory is survived: the kernel, for
a message that is sent on (`BaseNet/MessageStorage`), and `final_awaiter` (`BaseNet/Task`).
-/

namespace YServer

open Machinery

namespace Worker

/-! ## Reading the fault off a completion -/

/-- The packet completes a head whose first line has fewer than three tokens. -/
def Malformed (w : Worker) (conn : ℕ) (packet : Bytes) : Prop :=
  let text := cStringView ((w.conns conn).rawHttpRequest ++ packet)
  crlfcrlf <:+ text ∧ (pieces [sp] ((pieces crlf text).headD [])).length < 3

instance (w : Worker) (conn : ℕ) (packet : Bytes) : Decidable (w.Malformed conn packet) :=
  inferInstanceAs (Decidable (_ ∧ _))

/-- The queue does not hold so many requests more. -/
def overrun (w : Worker) (n : ℕ) : Option Fault :=
  if ioUringQueueSize < w.sq.length + n then some .nullSqe else none

/-- What the code that is resumed cannot do with a completion. -/
def ownFault (w : Worker) : Completion → Option Fault
  | .recv conn res packet =>
    if res < 0 then some .terminate
    else if 0 < res ∧ w.Malformed conn packet then some .outOfRange
    else none
  | .accept _ _ | .send _ _ => none

/-- The fault that the dispatch of a completion comes to. -/
def faultOf (w : Worker) (replies : List Bytes) (c : Completion) : Option Fault :=
  if c.tag = .accept ∧ w.accepting = false then some .deadCoroutine
  else if c.res = -etime then none
  else (w.ownFault c).or (w.overrun (w.resumeDemand replies c))

/-- …and an action. -/
def faultBy (w : Worker) : WorkerAction → Option Fault
  | .dispatch replies => w.cq.head?.bind (w.faultOf replies)
  | _ => none

/-- A computation ends on the fault, or well if there is none. -/
def EndsOn (fault : Option Fault) (result : Except Fault Worker) : Prop :=
  match fault with
  | none => ∃ w', result = .ok w'
  | some fault => result = .error fault

variable {w w' : Worker} {replies : List Bytes} {c : Completion}

/-! ## One dispatch -/

theorem EndsOn.eq_none {fault : Option Fault} (h : EndsOn fault (.ok w')) : fault = none := by
  cases fault with
  | none => rfl
  | some fault => cases h

theorem EndsOn.eq_some {fault : Option Fault} {fault' : Fault} (h : EndsOn fault (.error fault')) :
    fault = some fault' := by
  cases fault with
  | none => obtain ⟨w', hok⟩ := h; cases hok
  | some fault => exact congrArg some (Except.error.inj h).symm

theorem Costs.endsOn {n : ℕ} {result : Except Fault Worker} (h : Costs w n result) :
    EndsOn (w.overrun n) result := by
  rw [overrun]
  split_ifs with hroom
  · exact h.overruns hroom
  · obtain ⟨w', hok, -⟩ := h.fits (Nat.not_lt.mp hroom)
    exact ⟨w', hok⟩

/-- A packet is malformed exactly where the parser's access is out of range. -/
theorem malformed_iff {conn : ℕ} {packet : Bytes} : w.Malformed conn packet ↔
    parsePacket (w.conns conn).rawHttpRequest packet = .error .outOfRange := by
  rw [Malformed, ← RecvCompletion.requestOf_eq_none_iff, parsePacket_eq]
  split_ifs with hend
  · cases hrequest : requestOf (cStringView ((w.conns conn).rawHttpRequest ++ packet)) with
    | none => exact iff_of_true ⟨hend, rfl⟩ rfl
    | some request => exact iff_of_false (fun h => by cases h.2) (by simp)
  · exact iff_of_false (fun h => hend h.1) (by simp)

theorem endsOn_handleClient (hle : w.sq.length ≤ ioUringQueueSize) (conn : ℕ) (res : ℤ)
    (packet : Bytes) : EndsOn ((w.ownFault (.recv conn res packet)).or
        (w.overrun (w.resumeDemand replies (.recv conn res packet))))
      (w.handleClient conn res packet replies) := by
  rw [ownFault]
  split_ifs with hneg hmalformed
  · rw [handleClient, if_neg hneg.ne, if_pos hneg]
    rfl
  · obtain ⟨hpos, hmalformed⟩ := hmalformed
    rw [handleClient, if_neg hpos.ne', if_neg hneg, malformed_iff.mp hmalformed]
    rfl
  · rcases costs_handleClient conn res packet replies hle with hcosts | ⟨hzero, fault, -, herr⟩
    · exact hcosts.endsOn
    -- an error of its own would be one of the two above
    · exfalso
      rw [handleClient] at herr
      rw [resumeDemand] at hzero
      rcases (Int.not_lt.mp hneg).eq_or_lt with rfl | hpos
      · cases herr
      rw [if_neg hpos.ne', if_neg hneg] at herr
      rw [if_neg hpos.not_ge] at hzero
      rcases hparse : parsePacket (w.conns conn).rawHttpRequest packet
        with fault' | ⟨_ | request, raw⟩ <;> simp only [hparse] at herr hzero
      · obtain rfl := eq_outOfRange_of_parsePacket hparse
        exact hmalformed ⟨hpos, malformed_iff.mpr hparse⟩
      · cases hzero
      · cases hzero

/-- **A dispatch comes to what can be read off its completion**, as long as a handler or a send
coroutine is there. -/
theorem endsOn_dispatch (hle : w.sq.length ≤ ioUringQueueSize)
    (halive : c.tag ≠ .accept → w.alive c.tag = true) :
    EndsOn (w.faultOf replies c) (w.dispatch replies c) := by
  have hthere : c.tag ≠ .accept → ¬ w.alive c.tag = false := fun hne => by
    rw [halive hne]
    decide
  rw [faultOf, dispatch]
  cases c with
  | accept res more =>
    change EndsOn _ (if w.accepting = false then _ else _)
    by_cases haccepting : w.accepting = false
    · rw [if_pos ⟨rfl, haccepting⟩, if_pos haccepting]
      rfl
    · rw [if_neg fun h => haccepting h.2, if_neg haccepting]
      split_ifs with htime
      · exact ⟨_, rfl⟩
      · exact (costs_acceptClient res more replies hle).endsOn
  | recv conn res packet =>
    rw [if_neg fun h => (by cases h.1), if_neg (hthere (by simp [Completion.tag]))]
    split_ifs with htime
    · exact ⟨_, rfl⟩
    · exact endsOn_handleClient hle conn res packet
  | send k res =>
    rw [if_neg fun h => (by cases h.1), if_neg (hthere (by simp [Completion.tag]))]
    split_ifs with htime
    · exact ⟨_, rfl⟩
    · exact (costs_resumeSend k res replies hle).endsOn

/-! ## One step -/

/-- The queue holds what is in it. -/
theorem length_le_of_step {a : WorkerAction} (hle : w.sq.length ≤ ioUringQueueSize)
    (hst : w.step a = some w') : w'.sq.length ≤ ioUringQueueSize := by
  cases (stepped_of_step hst).2 with
  | submit => exact Nat.zero_le _
  | @dispatch replies left c cq w' hloop hcq hok =>
    rcases Nat.lt_or_ge ioUringQueueSize
      ((w.cqeSeen cq left).sq.length + (w.cqeSeen cq left).demand replies c) with hlt | hroom
    · cases (nullSqe_of_dispatch (w := w.cqeSeen cq left) hle hlt).symm.trans hok
    · exact length_le_of_dispatch (w := w.cqeSeen cq left) hle hroom hok
  | _ => exact hle

/-- What a completion comes to does not depend on the queue it is taken from. -/
theorem faultOf_cqeSeen (cq : List Completion) (left : ℕ) (replies : List Bytes) (c : Completion) :
    (w.cqeSeen cq left).faultOf replies c = w.faultOf replies c := by
  cases c <;> rfl

/-- **A step ends on what could be read off before it.** -/
theorem fault_of_step {a : WorkerAction} (ha : w.Awaited none)
    (hle : w.sq.length ≤ ioUringQueueSize) (hst : w.step a = some w') : w'.fault = w.faultBy a := by
  obtain ⟨hfault, hstepped⟩ := stepped_of_step hst
  have hends : ∀ (replies : List Bytes) (left : ℕ) {c : Completion} {cq : List Completion},
      w.cq = c :: cq →
        EndsOn (w.faultBy (.dispatch replies)) ((w.cqeSeen cq left).dispatch replies c) := by
    intro replies left c cq hcq
    have hmem : c.tag ∈ w.outstanding := by
      rw [outstanding, hcq]
      exact List.mem_append_right _ List.mem_cons_self
    have hdispatch : EndsOn ((w.cqeSeen cq left).faultOf replies c)
        ((w.cqeSeen cq left).dispatch replies c) :=
      endsOn_dispatch hle fun hne => (ha.alive_of_mem hne hmem).1
    rw [faultOf_cqeSeen] at hdispatch
    rw [faultBy, hcq]
    exact hdispatch
  cases hstepped with
  | @dispatch replies left c cq w' hloop hcq hok =>
    have hdispatch := hends replies left hcq
    rw [hok] at hdispatch
    rw [(SameKernel.dispatch hok).fault, hdispatch.eq_none]
    exact hfault
  | @fault replies left c cq fault hloop hcq herr =>
    have hdispatch := hends replies left hcq
    rw [herr] at hdispatch
    exact hdispatch.eq_some.symm
  | _ => exact hfault

end Worker

/-! ## What ends a worker -/

inductive Ending
  | fault (fault : Fault)
  /-- A message that has been released was released again. -/
  | releasedTwice
  /-- A `client_socket` that is gone was read. -/
  | destroyedSocket
  /-- `submit_and_wait` threw. -/
  | refusedSubmission
  deriving DecidableEq, Repr

namespace Worker

/-- What a send coroutine that is resumed does to memory: the awaiter deletes the message, and the
loop reads the descriptor in its socket before it submits the rest. -/
def hurtBySend (w : Worker) (k : ℕ) (res : ℤ) : Option Ending :=
  let task := w.sends k
  if task.released then some .releasedTwice
  else
    match sendResumed task.message.length task.bytesSent res with
    | .awaiting _ => if (w.conns task.conn).inLoop then none else some .destroyedSocket
    | .returned _ => none

/-- …and so an action. -/
def hurtBy (w : Worker) : WorkerAction → Option Ending
  | .dispatch _ =>
    match w.cq with
    | .send k res :: _ => if res = -etime then none else w.hurtBySend k res
    | _ => none
  | _ => none

end Worker

/-- A worker, and what it has ended on. -/
structure EndingWorker where
  worker : Worker
  ended : Option Ending

inductive EndingAction
  | worker (a : WorkerAction)
  /-- `io_uring_submit_and_wait` returns an error. -/
  | refuseSubmission
  deriving DecidableEq, Repr

/-- One step, up to the first that ends the worker. -/
def EndingWorker.step (s : EndingWorker) (a : EndingAction) : Option EndingWorker :=
  if s.ended.isSome then none
  else
    match a with
    | .worker a =>
      (s.worker.step a).map fun w => ⟨w, (s.worker.hurtBy a).or (w.fault.map .fault)⟩
    | .refuseSubmission =>
      if s.worker.loop = .batch 0 then some { s with ended := some .refusedSubmission } else none

/-- A worker that ends where its memory is hurt, or its submission refused. -/
def endingSystem : System EndingWorker EndingAction where
  init := ⟨workerSystem.init, none⟩
  step := EndingWorker.step

namespace Worker

instance (w : Worker) (k : ℕ) (res : ℤ) : Decidable (w.LeavesBytes k res) :=
  inferInstanceAs (Decidable (_ ∧ _))

/-- The hurt that can be read off a completion. -/
def hurtOf (w : Worker) : Completion → Option Ending
  | .send k res =>
    if res = -etime then none
    else if (w.sends k).released then some .releasedTwice
    else if w.LeavesBytes k res ∧ (w.conns (w.sends k).conn).inLoop = false then
      some .destroyedSocket
    else none
  | .accept _ _ | .recv _ _ _ => none

/-- What an action comes to. -/
def doom (w : Worker) : EndingAction → Option Ending
  | .worker (.dispatch replies) =>
    w.cq.head?.bind fun c => (w.hurtOf c).or ((w.faultOf replies c).map .fault)
  | .worker _ => none
  | .refuseSubmission => some .refusedSubmission

variable {w w' : Worker}

/-- **The socket is read exactly where bytes are left to send.** -/
theorem hurtOf_send (k : ℕ) (res : ℤ) :
    w.hurtOf (.send k res) = if res = -etime then none else w.hurtBySend k res := by
  rw [hurtOf, hurtBySend]
  congr 2
  rcases hresumed : sendResumed (w.sends k).message.length (w.sends k).bytesSent res
    with offset | value
  · have hleaves : w.LeavesBytes k res := awaiting_iff_leavesBytes.mpr ⟨offset, hresumed⟩
    cases hin : (w.conns (w.sends k).conn).inLoop <;> simp [hleaves]
  · have hsent : ¬ w.LeavesBytes k res := fun hleaves => by
      obtain ⟨offset, hawaiting⟩ := awaiting_iff_leavesBytes.mp hleaves
      cases hawaiting.symm.trans hresumed
    simp [hsent]

theorem doom_worker (a : WorkerAction) :
    w.doom (.worker a) = (w.hurtBy a).or ((w.faultBy a).map .fault) := by
  cases a with
  | dispatch replies =>
    rw [doom, hurtBy, faultBy]
    rcases hcq : w.cq with _ | ⟨c, cq⟩
    · rfl
    · cases c with
      | send k res => exact congrArg (Option.or · _) (hurtOf_send k res)
      | _ => rfl
  | _ => rfl

end Worker

/-! ## Whole runs -/

/-- **What ends a worker**: in every run, each step ends on what can be read off the completion it
dispatches, if anything can, or on a submission that is refused, and on nothing otherwise. -/
theorem ended_of_run {run : List EndingAction} {s s' : EndingWorker} {a : EndingAction}
    (hrun : endingSystem.run run = some s) (hst : s.step a = some s') :
    s'.ended = s.worker.doom a := by
  have hsteps : ∀ (s : EndingWorker) b t, s.step (.worker b) = some t → ∃ w,
      s.worker.step b = some w ∧ ⟨w, (s.worker.hurtBy b).or (w.fault.map .fault)⟩ = t :=
    fun s b t h => Option.map_eq_some_iff.mp (Option.ite_none_left_eq_some.mp h).2
  have hrefused : ∀ (s : EndingWorker) t, s.step .refuseSubmission = some t →
      { s with ended := some .refusedSubmission } = t := fun s t h =>
    Option.some.inj (Option.ite_none_right_eq_some.mp (Option.ite_none_left_eq_some.mp h).2).2
  obtain ⟨ha, hle⟩ := System.forall_visited
    (fun s : EndingWorker => s.worker.Awaited none ∧ s.worker.sq.length ≤ ioUringQueueSize)
    ⟨awaited_init, by decide⟩ (fun s a t h hst => by
      cases a with
      | worker b =>
        obtain ⟨w, hw, rfl⟩ := hsteps s b t hst
        exact ⟨h.1.step hw, Worker.length_le_of_step h.2 hw⟩
      | refuseSubmission =>
        obtain rfl := hrefused s t hst
        exact h) run s (System.mem_visited_of_run _ hrun)
  cases a with
  | worker b =>
    obtain ⟨w, hw, rfl⟩ := hsteps s b s' hst
    rw [Worker.doom_worker, ← Worker.fault_of_step ha hle hw]
  | refuseSubmission =>
    obtain rfl := hrefused s s' hst
    rfl

/-- The kernel takes a response in two pieces, and the second result is there. -/
def secondResultRun : List EndingAction :=
  [.submit, .completeAccept 0 5 true, .collect, .dispatch [], .submit,
    .completeRecv 1 18 (ascii "GET / HTTP/1.1\r\n\r\n"), .collect, .dispatch [ascii "hello"],
    .submit, .completeSend 1 2 (ascii "he"), .collect, .dispatch [], .submit,
    .completeSend 2 3 (ascii "llo"), .collect].map .worker

theorem ended_secondResultRun : ∃ s s', endingSystem.run secondResultRun = some s ∧
    s.step (.worker (.dispatch [])) = some s' ∧ s'.ended = some .releasedTwice := by
  obtain ⟨s, s', hrun, hst, hdoom⟩ : ∃ s s', endingSystem.run secondResultRun = some s ∧
      s.step (.worker (.dispatch [])) = some s' ∧
      s.worker.doom (.worker (.dispatch [])) = some .releasedTwice :=
    ⟨_, _, rfl, rfl, by decide +kernel⟩
  exact ⟨s, s', hrun, hst, (ended_of_run hrun hst).trans hdoom⟩

end YServer
