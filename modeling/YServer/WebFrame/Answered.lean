import YServer.BaseNet.WorkerRest
import YServer.WebFrame.Conversation

/-!
# WebFrame/Answered — does every request get its answer?

`WebFrame/Conversation` says what a client has read at any time; `BaseNet/WorkerRest` what the
worker comes to by itself.  Once all packets of a client's requests have been received,

    received ─▸ dispatched ─▸ parsed ─▸ routed ─▸ replied ─▸ sent ─▸ read

goes on without the client, in any order and with any pieces, and ends with the client having read
an answer to each of its requests, unless the kernel refuses a send or the worker faults
(`answers_of_bufferedRun`).  What is received from then on would go into the buffers: up to then, it
must have gone into none that a completion still held.
-/

namespace YServer

open Machinery

namespace Worker

/-- Bytes are put on the wire in turn, and the handlers answer as the application does. -/
def Behaves (app : HttpRequest → List Reply) (w : Worker) (a : WorkerAction) : Prop :=
  w.InTurn a ∧ w.Answers app a

instance (app : HttpRequest → List Reply) (w : Worker) (a : WorkerAction) :
    Decidable (w.Behaves app a) :=
  inferInstanceAs (Decidable (_ ∧ _))

variable {app : HttpRequest → List Reply} {w : Worker} {t : ℕ}

/-- A worker that could still misbehave only is stuck: its handlers can answer as they should, and
a refused send is in turn. -/
theorem stuck_of_guard
    (hrest : ∀ a : WorkerAction, a.Own → (workerSystem.guard (Behaves app)).step w a = none) :
    w.Stuck := by
  have hnone : ∀ a : WorkerAction, a.Own → w.Behaves app a → w.step a = none := fun a hown ha =>
    (if_pos ha).symm.trans (hrest a hown)
  refine ⟨hnone .submit trivial ⟨trivial, trivial⟩, hnone .collect trivial ⟨trivial, trivial⟩,
    ?_, fun j => hnone _ (by simp) ⟨fun hpos => absurd hpos (by decide), trivial⟩⟩
  refine ⟨(w.nextRequest.map fun x => (app x.2).map Reply.message).getD [],
    hnone _ trivial ⟨trivial, fun x hx => ?_⟩⟩
  rw [hx]
  rfl

/-- What goes on by itself receives nothing. -/
theorem received_of_own {a : WorkerAction} (ha : a.Own) (w u : Worker) :
    received t ⟨w, a, u⟩ = none := by
  cases a with
  | completeRecv j res packet => exact ha.elim
  | _ => rfl

end Worker

/-- From where all packets of a client's requests have been received, the worker comes to where the
client has read the replies to all of its requests — or one of these was refused, or the worker
faulted — where the completions carry the packets. -/
theorem answers_of_run {routes : List (Route HandlerFunc)} {run : List WorkerAction} {w : Worker}
    {t : ℕ} (hrun : workerSystem.run run = some w)
    (hbehaves : ∀ m ∈ workerSystem.moves run,
      m.src.Behaves (Router.registered routes).serveHTTP m.act)
    (hroutes : ∀ r ∈ routes, dash ∉ r.method ∧ r.Framed) {written : List WrittenRequest}
    (hwritten : ∀ r ∈ written, dash ∉ r.method.text ∧ ∀ h ∈ r.headers, colon ∉ h.value)
    {seg : Segmentation (written.map WrittenRequest.head)} (hseg : seg.Aligned)
    (hreceived : (workerSystem.moves run).filterMap (Worker.received t) = seg.packets) :
    (workerSystem.guard (Worker.Behaves (Router.registered routes).serveHTTP)).recorded.Inevitably
      WorkerAction.Own (fun s => s.2.fault.isSome ∨ (∃ k ∈ s.2.responses t, Worker.Refused s.1 k) ∨
        (responseFraming.readAll (s.2.wire t)).1
          = (written.flatMap fun r => exactReplies routes r.request).map Reply.received)
      (workerSystem.moves run, w) := by
  refine System.inevitably_of_cost (fun s => workerSystem.Reached s ∧
      (∀ m ∈ s.1, m.src.Behaves (Router.registered routes).serveHTTP m.act) ∧
      s.1.filterMap (Worker.received t) = seg.packets)
    (fun s => s.2.cost) (fun s a u h ha hst => ?_) (fun s h hrest => ?_)
    ⟨⟨run, hrun, rfl⟩, hbehaves, hreceived⟩
  · obtain ⟨v, hv, rfl⟩ := System.step_recorded_eq_some.mp hst
    obtain ⟨hbehave, hv⟩ := (workerSystem.step_guard_eq_some).mp hv
    refine ⟨⟨h.1.concat hv, ?_, ?_⟩, Worker.cost_lt_of_own (tallied_of_reached h.1).1 ha hv⟩
    · exact List.forall_mem_append.mpr ⟨h.2.1, List.forall_mem_singleton.mpr hbehave⟩
    · rw [Worker.filterMap_concat_of_none (Worker.received_of_own ha s.2 v)]
      exact h.2.2
  · obtain ⟨hreached, hbehaves, hreceived⟩ := h
    have hstuck : s.2.Stuck := Worker.stuck_of_guard fun a ha =>
      Option.map_eq_none_iff.mp (hrest a ha)
    cases hfault : s.2.fault with
    | some fault => exact Or.inl rfl
    | none =>
      obtain ⟨ha, hturned, htallied⟩ := tallied_of_reached hreached
      have hatRest := hstuck.atRest hfault ha hturned htallied
      obtain ⟨as, has, hmoves⟩ := hreached
      rw [← hmoves] at hbehaves hreceived
      by_cases hrefused : ∃ k ∈ s.2.responses t, Worker.Refused s.1 k
      · exact Or.inr (Or.inl hrefused)
      refine Or.inr (Or.inr (readAll_of_handed has hfault (fun m hm => (hbehaves m hm).1)
        (fun m hm => (hbehaves m hm).2) hroutes hwritten hseg ?_ fun k hk => ?_))
      · have hwaiting : s.2.waiting t = [] := by rw [Worker.waiting, hatRest.cq]; rfl
        rw [← hreceived, (alone_of_run has hfault t).2.packets, hwaiting, List.append_nil]
      · exact (hatRest.settled k).resolve_right fun hk' => hrefused ⟨k, hk, hk'⟩

/-! ## From the buffers -/

namespace BufferedWorker

/-- The worker behaves as far as what the buffers hold is concerned. -/
abbrev Behaves (app : HttpRequest → List Reply) (s : BufferedWorker) (a : WorkerAction) : Prop :=
  s.reading.Behaves app a

variable {app : HttpRequest → List Reply} {memory : IoUringBufRing}

/-- A history of a worker with its buffers, as it reads it. -/
def readHistory (s : List (Move BufferedWorker WorkerAction) × BufferedWorker) :
    List WorkerMove × Worker :=
  (s.1.map (Move.map reading), s.2.reading)

/-- **What goes on by itself goes on as in the worker that is read**, for nothing is received. -/
theorem step_readHistory {s t : List (Move BufferedWorker WorkerAction) × BufferedWorker}
    {a : WorkerAction} (h : s.2.Sound s.2.reading) (ha : a.Own)
    (hst : ((bufferedSystem memory).guard (Behaves app)).recorded.step s a = some t) :
    (workerSystem.guard (Worker.Behaves app)).recorded.step (readHistory s) a
      = some (readHistory t) ∧ t.2.Sound t.2.reading := by
  obtain ⟨u, hu, rfl⟩ := System.step_recorded_eq_some.mp hst
  obtain ⟨hbehaves, hu⟩ := (System.step_guard_eq_some _).mp hu
  have hfresh : s.2.Fresh a := by
    cases a with
    | completeRecv j res packet => exact ha.elim
    | _ => trivial
  obtain ⟨hread, hsound⟩ := step_reading h hu hfresh
  refine ⟨System.step_recorded_eq_some.mpr
    ⟨u.reading, (System.step_guard_eq_some _).mpr ⟨hbehaves, hread⟩, ?_⟩, hsound⟩
  simp only [readHistory, List.map_append]
  rfl

/-- …and no less of it. -/
theorem isSome_step_readHistory {s : List (Move BufferedWorker WorkerAction) × BufferedWorker}
    {a : WorkerAction} (h : s.2.Sound s.2.reading) (ha : a.Own)
    (hst : ((workerSystem.guard (Worker.Behaves app)).recorded.step (readHistory s) a).isSome) :
    (((bufferedSystem memory).guard (Behaves app)).recorded.step s a).isSome := by
  obtain ⟨t, ht⟩ := Option.isSome_iff_exists.mp hst
  obtain ⟨w, hw, -⟩ := System.step_recorded_eq_some.mp ht
  obtain ⟨hbehaves, hw⟩ := (System.step_guard_eq_some _).mp hw
  have hbuffer : s.2.HasBuffer a := by
    cases a with
    | completeRecv j res packet => exact ha.elim
    | _ => trivial
  have hsome : (s.2.reading.step a).isSome := Option.isSome_iff_exists.mpr ⟨w, hw⟩
  obtain ⟨u, hu⟩ := Option.isSome_iff_exists.mp ((h.isSome_step a).mpr ⟨hsome, hbuffer⟩)
  exact Option.isSome_iff_exists.mpr ⟨_, System.step_recorded_eq_some.mpr
    ⟨u, (System.step_guard_eq_some _).mpr ⟨hbehaves, hu⟩, rfl⟩⟩

end BufferedWorker

/-- **Every request gets its answer**: from where all packets of a client's requests have been
received, none of them into a buffer that was held, as long as no other connection and no other
packet comes, no answer to a send is zero, bytes are put on the wire in turn and the handlers answer
as routed, it comes to where the client has read the replies to all of its requests — or one of
these was refused, or the worker faulted. -/
theorem answers_of_bufferedRun (memory : IoUringBufRing) {routes : List (Route HandlerFunc)}
    {run : List WorkerAction} {s : BufferedWorker} {t : ℕ}
    (hrun : (bufferedSystem memory).run run = some s)
    (hfresh : ∀ m ∈ (bufferedSystem memory).moves run, m.src.Fresh m.act)
    (hbehaves : ∀ m ∈ readings memory run,
      m.src.Behaves (Router.registered routes).serveHTTP m.act)
    (hroutes : ∀ r ∈ routes, dash ∉ r.method ∧ r.Framed) {written : List WrittenRequest}
    (hwritten : ∀ r ∈ written, dash ∉ r.method.text ∧ ∀ h ∈ r.headers, colon ∉ h.value)
    {seg : Segmentation (written.map WrittenRequest.head)} (hseg : seg.Aligned)
    (hreceived : (readings memory run).filterMap (Worker.received t) = seg.packets) :
    ((bufferedSystem memory).guard
        (BufferedWorker.Behaves (Router.registered routes).serveHTTP)).recorded.Inevitably
      WorkerAction.Own (fun s => s.2.worker.fault.isSome ∨
        (∃ k ∈ s.2.worker.responses t,
          Worker.Refused (s.1.map (Move.map BufferedWorker.reading)) k) ∨
        (responseFraming.readAll (s.2.worker.wire t)).1
          = (written.flatMap fun r => exactReplies routes r.request).map Reply.received)
      ((bufferedSystem memory).moves run, s) := by
  obtain ⟨hworker, hmoves, hsound⟩ := reading_of_run memory hrun hfresh
  rw [← hmoves] at hbehaves hreceived
  have hanswers := answers_of_run hworker hbehaves hroutes hwritten hseg hreceived
  rw [hmoves] at hanswers
  exact System.Inevitably.of_maps (s := ((bufferedSystem memory).moves run, s))
    BufferedWorker.readHistory (fun s => s.2.Sound s.2.reading)
    (fun _ _ _ h ha hst => BufferedWorker.step_readHistory h ha hst)
    (fun _ _ h ha hst => BufferedWorker.isSome_step_readHistory h ha hst) hsound hanswers

/-- A client has sent a request in two packets, and the second has not been dispatched. -/
def askedRun : List WorkerAction :=
  [.submit, .completeAccept 0 5 true, .collect, .dispatch [], .submit,
    .completeRecv 1 3 (ascii "GET"), .collect, .dispatch [], .submit,
    .completeRecv 1 16 (ascii " /a HTTP/1.1\r\n\r\n")]

/-- **The client will have read `hi`.** -/
theorem answers_askedRun : ∃ s, (bufferedSystem cleared).run askedRun = some s ∧
    ((bufferedSystem cleared).guard
        (BufferedWorker.Behaves (Router.registered helloRoutes).serveHTTP)).recorded.Inevitably
      WorkerAction.Own (fun s => s.2.worker.fault.isSome ∨
        (∃ k ∈ s.2.worker.responses 0,
          Worker.Refused (s.1.map (Move.map BufferedWorker.reading)) k) ∨
        (responseFraming.readAll (s.2.worker.wire 0)).1 = [helloReply].map Reply.received)
      ((bufferedSystem cleared).moves askedRun, s) := by
  obtain ⟨w, hrun⟩ : ∃ w, workerSystem.run askedRun = some w := ⟨_, rfl⟩
  have hbehaves : ∀ m ∈ workerSystem.moves askedRun,
      m.src.Behaves (Router.registered helloRoutes).serveHTTP m.act := by decide +kernel
  have hreceived : (workerSystem.moves askedRun).filterMap (Worker.received 0)
      = helloPackets.packets := by decide +kernel
  obtain ⟨s, hs, hfresh, -⟩ := exists_bufferedRun cleared hrun (by decide +kernel) (by decide)
  rw [(reading_of_run cleared hs hfresh).2.1] at hbehaves hreceived
  rw [← exactReplies_helloRoutes]
  exact ⟨s, hs, answers_of_bufferedRun cleared hs hfresh hbehaves framed_helloRoutes
    written_helloRequest aligned_helloPackets hreceived⟩

end YServer
