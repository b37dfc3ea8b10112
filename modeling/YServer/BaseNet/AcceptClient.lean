import YServer.BaseNet.Worker

/-!
# BaseNet/AcceptClient — which results become connections?

    completion ──event_loop──▸ -ETIME? ──await_resume──▸ re-arm ──accept_client──▸ -1? ──▸ socket

The kernel answers an accept with a descriptor or with a negative errno, `accept_client` asks for
the `-1` of the system call.  So a socket is made of every other failure, except that the event loop
destroys the coroutine on `-ETIME`, and any completion after that resumes what is gone; nothing else
goes wrong (`forall_started_iff`).
-/

namespace YServer

open Machinery

/-! ## The coroutine, one completion after the other -/

/-- `IORING_CQE_F_MORE`. -/
def ioringCqeFMore : UInt32 := 2

/-- The accept coroutine between two completions. -/
structure AcceptClient where
  /-- `sqe_data_.cqe_res` and `cqe_flags` of the accept guard. -/
  cqeRes : ℤ
  cqeFlags : UInt32
  /-- How many multishot accepts have been submitted. -/
  requests : ℕ
  /-- The coroutine has a frame. -/
  alive : Bool
  /-- The descriptors of the sockets handlers were started on, in order. -/
  handlers : List ℤ
  /-- The results of the completions so far. -/
  results : List ℤ
  fault : Option Fault
  deriving DecidableEq, Repr

/-- A completion of the multishot accept. -/
structure AcceptCompletion where
  res : ℤ
  flags : UInt32
  deriving DecidableEq, Repr

namespace AcceptClient

/-- `event_loop` stores what the completion says. -/
def store (s : AcceptClient) (c : AcceptCompletion) : AcceptClient :=
  { s with cqeRes := c.res, cqeFlags := c.flags, results := s.results ++ [c.res] }

/-- `multishot_accept_guard::await_resume`: it arms the accept again if no more is to come. -/
def awaitResume (s : AcceptClient) : ℤ × AcceptClient :=
  (s.cqeRes,
    { s with
      requests := if s.cqeFlags &&& ioringCqeFMore = 0 then s.requests + 1 else s.requests })

/-- The loop of `accept_client`, from the resumption to its next suspension. -/
def resume (s : AcceptClient) : AcceptClient :=
  if s.awaitResume.1 = -1 then s.awaitResume.2
  else { s.awaitResume.2 with handlers := s.handlers ++ [s.awaitResume.1] }

/-- One turn of `event_loop` with a completion of the accept. -/
def dispatch (s : AcceptClient) (c : AcceptCompletion) : AcceptClient :=
  let s := s.store c
  if s.alive = false then { s with fault := some .deadCoroutine }
  else if c.res = -etime then { s with alive := false }
  else s.resume

end AcceptClient

/-- The coroutine from its first suspension on, and any completions. -/
def acceptSystem : System AcceptClient AcceptCompletion where
  init :=
    { cqeRes := 0
      cqeFlags := 0
      requests := 1
      alive := true
      handlers := []
      results := []
      fault := none }
  step s c := if s.fault.isSome then none else some (s.dispatch c)

namespace AcceptClient

/-- **A handler for every connection**: the sockets are those of the results that are descriptors,
one for one and in order, and only a coroutine that was there has been resumed. -/
def Started (s : AcceptClient) : Prop :=
  s.handlers = s.results.filter (0 ≤ ·) ∧ s.fault = none

instance (s : AcceptClient) : Decidable s.Started := inferInstanceAs (Decidable (_ ∧ _))

/-- The condition on one completion: the coroutine has not been destroyed, and a failure is one that
it or the event loop knows. -/
def Known (s : AcceptClient) (c : AcceptCompletion) : Prop :=
  s.alive ∧ (0 ≤ c.res ∨ c.res = -1 ∨ c.res = -etime)

variable {s : AcceptClient} {c : AcceptCompletion}

theorem handlers_resume (s : AcceptClient) :
    s.resume.handlers = s.handlers ++ if s.cqeRes = -1 then [] else [s.cqeRes] := by
  change (if s.cqeRes = -1 then _ else _ : AcceptClient).handlers = _
  split_ifs
  · exact (List.append_nil _).symm
  · rfl

theorem results_resume (s : AcceptClient) : s.resume.results = s.results := by
  rw [resume]
  split_ifs <;> rfl

/-- Every completion is recorded. -/
theorem results_dispatch (s : AcceptClient) (c : AcceptCompletion) :
    (s.dispatch c).results = s.results ++ [c.res] := by
  simp only [dispatch]
  split_ifs
  · rfl
  · rfl
  · exact results_resume _

/-- A coroutine with a frame loses it on `-ETIME` only. -/
theorem alive_dispatch (h : s.alive = true) (c : AcceptCompletion) :
    (s.dispatch c).alive = !decide (c.res = -etime) := by
  simp only [dispatch, store, h, Bool.true_eq_false, if_false]
  split_ifs with htime
  · simp [htime]
  · rw [resume]
    split_ifs <;> simp [awaitResume, htime]

theorem fault_dispatch (h : s.alive = true) (c : AcceptCompletion) :
    (s.dispatch c).fault = s.fault := by
  simp only [dispatch, store, h, Bool.true_eq_false, if_false]
  split_ifs
  · rfl
  · rw [resume]
    split_ifs <;> rfl

/-- **What a completion adds to the sockets.** -/
theorem handlers_dispatch (s : AcceptClient) (c : AcceptCompletion) : (s.dispatch c).handlers
    = s.handlers ++ if s.alive = false ∨ c.res = -etime ∨ c.res = -1 then [] else [c.res] := by
  simp only [dispatch]
  split_ifs with hdead hknown htime hknown hknown
  · exact (List.append_nil _).symm
  · exact absurd (Or.inl hdead) hknown
  · exact (List.append_nil _).symm
  · exact absurd (Or.inr (Or.inl htime)) hknown
  · rw [handlers_resume]
    have hres : c.res = -1 := (hknown.resolve_left hdead).resolve_left htime
    rw [if_pos (by exact hres)]
    rfl
  · rw [handlers_resume]
    have hres : ¬ c.res = -1 := fun h => hknown (Or.inr (Or.inr h))
    rw [if_neg (by exact hres)]
    rfl

/-- **One completion**: it is started as it should be exactly under the condition. -/
theorem Started.dispatch_iff (h : s.Started) (c : AcceptCompletion) :
    (s.dispatch c).Started ↔ s.Known c := by
  cases halive : s.alive with
  | false =>
    refine iff_of_false (fun hstarted => ?_) fun hknown => by cases halive.symm.trans hknown.1
    have hfault := hstarted.2
    simp [dispatch, store, halive] at hfault
  | true =>
    have hcondition : s.Known c ↔ 0 ≤ c.res ∨ c.res = -1 ∨ c.res = -etime := by
      rw [Known, halive]
      exact and_iff_right rfl
    have hfault : (s.dispatch c).fault = none := (fault_dispatch halive c).trans h.2
    have htime : -etime < 0 := by decide
    rw [Started, and_iff_left hfault, handlers_dispatch, results_dispatch, List.filter_append, h.1,
      List.append_cancel_left_eq, hcondition, halive]
    rcases Int.lt_or_le c.res 0 with hneg | hpos
    · rw [List.filter_cons_of_neg (by simpa using hneg), List.filter_nil, ite_eq_left_iff]
      simp [hneg.not_ge, or_comm, Decidable.or_iff_not_imp_left]
    · rw [List.filter_cons_of_pos (by simpa using hpos), List.filter_nil, ite_eq_right_iff]
      have hfail : ¬ (c.res = -etime ∨ c.res = -1) := by omega
      simp [hpos, hfail]

end AcceptClient

/-- **A handler is started for each accepted connection and for nothing else exactly when every
failure is a known one** — `-1`, or an `-ETIME` with nothing behind it. -/
theorem forall_started_iff (completions : List AcceptCompletion) :
    (∀ s ∈ acceptSystem.visited completions, s.Started) ↔
      ∀ m ∈ acceptSystem.moves completions, m.src.Known m.act := by
  have hstep : ∀ {s c t}, acceptSystem.step s c = some t → t = s.dispatch c := fun h =>
    (Option.some.inj (Option.ite_none_left_eq_some.mp h).2).symm
  have hinit : acceptSystem.init.Started := ⟨rfl, rfl⟩
  refine System.forall_visited_iff_moves AcceptClient.Started hinit (fun _ h => h) ?_ ?_ completions
  · intro s c t hs hst hknown
    rw [hstep hst]
    exact (hs.dispatch_iff c).mpr hknown
  · intro s c t hs hst hmiss ht
    rw [hstep hst] at ht
    exact hmiss ((hs.dispatch_iff c).mp ht)

/-- The process is out of descriptors. -/
def emfile : ℤ := 24

/-- **A handler is started on the error.** -/
theorem not_started_emfile :
    ¬ ∀ s ∈ acceptSystem.visited [⟨-emfile, ioringCqeFMore⟩], s.Started := by
  decide

/-! ## The accept coroutine of a worker

The worker's connections are the sockets of an accept coroutine that got the same completions. -/

namespace Worker

/-- The worker's accept coroutine is this one, its connections are the handlers it has started. -/
structure Shows (w : Worker) (s : AcceptClient) : Prop where
  alive : s.alive = w.accepting
  handlers : s.handlers = (List.range w.connCount).map fun i => (w.conns i).rawFileDescriptor
  faultless : s.fault = none

variable {w w' : Worker} {s : AcceptClient}

/-- Whatever else a worker does leaves the descriptors of its connections. -/
theorem Shows.congr (h : w.Shows s) (haccepting : w'.accepting = w.accepting)
    (hcount : w'.connCount = w.connCount)
    (hconns : ∀ i, (w'.conns i).rawFileDescriptor = (w.conns i).rawFileDescriptor) :
    w'.Shows s where
  alive := h.alive.trans haccepting.symm
  handlers := by rw [h.handlers, hcount, funext hconns]
  faultless := h.faultless

theorem Shows.prepare (h : w.Shows s) {request : Request} (hok : w.prepare request = .ok w') :
    w'.Shows s := by
  rw [prepare_eq_ok hok]
  exact h.congr rfl rfl fun _ => rfl

theorem Shows.setRaw (h : w.Shows s) (conn : ℕ) (raw : Bytes) : (w.setRaw conn raw).Shows s :=
  h.congr rfl rfl (rawFileDescriptor_setRaw conn raw)

theorem Shows.leave (h : w.Shows s) (conn : ℕ) : (w.leave conn).Shows s :=
  h.congr rfl rfl (rawFileDescriptor_leave conn)

theorem Shows.setSend (h : w.Shows s) (k : ℕ) (task : SendTask) : (w.setSend k task).Shows s :=
  h.congr rfl rfl fun _ => rfl

theorem Shows.serve {conn : ℕ} {replies : List Bytes} (h : w.Shows s)
    (hok : w.serve conn replies = .ok w') : w'.Shows s := by
  induction replies generalizing w with
  | nil => exact Except.ok.inj hok ▸ h
  | cons message replies ih =>
    obtain ⟨w₁, hsend, hrest⟩ := bind_eq_ok hok
    refine ih ?_ hrest
    rcases send_eq_ok hsend with ⟨-, rfl⟩ | ⟨-, rfl⟩ <;> exact h.congr rfl rfl fun _ => rfl

/-- **A new connection** is the handler the coroutine starts. -/
theorem Shows.connect (h : w.Shows s) (s' : AcceptClient) {res : ℤ} (halive : s'.alive = s.alive)
    (hhandlers : s'.handlers = s.handlers ++ [res]) (hfault : s'.fault = none) :
    (w.connect res).Shows s' where
  alive := halive.trans h.alive
  handlers := by
    have hold : ∀ i ∈ List.range w.connCount,
        ((w.connect res).conns i).rawFileDescriptor = (w.conns i).rawFileDescriptor := by
      intro i hi
      simp [Worker.connect, (List.mem_range.mp hi).ne]
    change _ = (List.range (w.connCount + 1)).map _
    rw [hhandlers, h.handlers, List.range_succ, List.map_append, List.map_congr_left hold]
    simp [Worker.connect]
  faultless := hfault

/-- The flags of a completion. -/
def flagsOf (more : Bool) : UInt32 := if more then ioringCqeFMore else 0

/-- **A completion of the accept does in the worker what it does to the coroutine.** -/
theorem Shows.dispatch_accept (h : w.Shows s) {replies : List Bytes} {res : ℤ} {more : Bool}
    (hok : w.dispatch replies (.accept res more) = .ok w') :
    w'.Shows (s.dispatch ⟨res, flagsOf more⟩) := by
  have halive : w.alive .accept = true := (resumed_of_dispatch hok).1
  have hs : s.alive = true := h.alive.trans halive
  have hfault := (AcceptClient.fault_dispatch hs ⟨res, flagsOf more⟩).trans h.faultless
  have hdispatch := AcceptClient.alive_dispatch hs ⟨res, flagsOf more⟩
  have hhandlers := AcceptClient.handlers_dispatch s ⟨res, flagsOf more⟩
  rw [dispatch, Completion.tag, halive, if_neg (by decide), Completion.res] at hok
  split at hok
  · next htime =>
    rw [if_pos (Or.inr (Or.inl htime)), List.append_nil] at hhandlers
    rw [← Except.ok.inj hok]
    exact ⟨hdispatch.trans (by simp [htime, destroy]), hhandlers.trans h.handlers, hfault⟩
  · next htime =>
    have hstays := hdispatch.trans (show (!decide (res = -etime)) = s.alive by simp [htime, hs])
    obtain ⟨w₁, harm, hrest⟩ := bind_eq_ok hok
    have h₁ : w₁.Shows s := by
      cases more with
      | true => exact Except.ok.inj harm ▸ h
      | false => exact h.prepare harm
    split at hrest
    · next hfail =>
      rw [if_pos (Or.inr (Or.inr hfail)), List.append_nil] at hhandlers
      rw [← Except.ok.inj hrest]
      exact ⟨hstays.trans h₁.alive, hhandlers.trans h₁.handlers, hfault⟩
    · next hfail =>
      have hnew : ¬ (s.alive = false ∨ res = -etime ∨ res = -1) := by simp [hs, htime, hfail]
      rw [if_neg hnew] at hhandlers
      exact (h₁.connect _ hstays hhandlers hfault).prepare hrest

/-- Other completions start no handler. -/
theorem Shows.dispatch_other (h : w.Shows s) {replies : List Bytes} {c : Completion}
    (hc : c.tag ≠ .accept) (hok : w.dispatch replies c = .ok w') : w'.Shows s := by
  cases (resumed_of_dispatch hok).2 with
  | acceptDestroyed | acceptFailed | connected => exact absurd rfl hc
  | left hres => exact h.leave _
  | kept hpos hparse hrecv => exact (h.setRaw _ _).prepare hrecv
  | served hpos hparse hserve hrecv => exact ((h.setRaw _ _).serve hserve).prepare hrecv
  | sendDestroyed => exact h.setSend _ _
  | sendEnded => exact h.setSend _ _
  | sendAgain htime hresumed hok => exact (h.setSend _ _).prepare hok

/-- **In every run of a worker** the connections are the handlers of an accept coroutine. -/
theorem exists_run_shows (as : List WorkerAction) : ∀ w ∈ workerSystem.visited as,
    ∃ completions s, acceptSystem.run completions = some s ∧ w.Shows s := by
  refine System.forall_visited _ ⟨[], _, rfl, rfl, rfl, rfl⟩ ?_ as
  rintro w a w' ⟨completions, s, hrun, h⟩ hst
  obtain ⟨-, hstepped⟩ := stepped_of_step hst
  cases hstepped with
  | @dispatch replies left c cq _ hloop hcq hok =>
    have hseen : (w.cqeSeen cq left).Shows s := h.congr rfl rfl fun _ => rfl
    cases c with
    | accept res more =>
      refine ⟨completions ++ [⟨res, flagsOf more⟩], _, acceptSystem.run_concat hrun ?_,
        hseen.dispatch_accept hok⟩
      simp [acceptSystem, h.faultless]
    | recv conn res packet =>
      exact ⟨completions, s, hrun, hseen.dispatch_other (by simp [Completion.tag]) hok⟩
    | send task res =>
      exact ⟨completions, s, hrun, hseen.dispatch_other (by simp [Completion.tag]) hok⟩
  | submit | collect | fault | completeAccept | completeRecv | completeSend =>
    exact ⟨completions, s, hrun, h.congr rfl rfl fun _ => rfl⟩

end Worker

end YServer
