import YServer.BaseNet.Targets

/-!
# BaseNet/SocketLifetime — is a socket there while its responses are sent?

The lasting reference to a socket is its handler's, as long as nothing behind `ServeHTTP` keeps one;
a send coroutine only points at it.  A response's first request is prepared while the handler runs
and submitted together with its next recv, so it always finds the socket.  The later ones are
prepared whenever a short result comes back:

    short result ─ handler in its loop ──▶ request on the socket
                 └ handler has left ─────▶ request on a closed descriptor, or on somebody else's

and one that has been prepared may lose its socket to an end of stream before it is submitted.
These two are all that can go wrong (`sendsOwn_iff`).
-/

namespace YServer

open Machinery

namespace Worker

/-- **Every send request that is to be submitted names its own connection**: the socket the response
is for exists, and the descriptor is open and stands for that socket's peer. -/
def SendsOwn (w : Worker) : Prop :=
  ∀ k fd offset length, .send k fd offset length ∈ w.sq →
    (w.conns (w.sends k).conn).inLoop = true ∧
      ∃ t, (w.conns (w.sends k).conn).peer = some t ∧ w.fds fd = some t

/-- A result that leaves the send coroutine with bytes to send. -/
def LeavesBytes (w : Worker) (k : ℕ) (res : ℤ) : Prop :=
  0 ≤ res ∧ (w.sends k).bytesSent + res < (w.sends k).message.length

/-- The condition on one action: a short result finds the handler in its loop, and the handler
leaves no request of a response behind that is still to be submitted. -/
def KeepsSocket (w : Worker) : WorkerAction → Prop
  | .dispatch _ => ∀ c ∈ w.cq.head?,
    match c with
    | .accept _ _ => True
    | .recv conn res _ => res = 0 ∨ res = -etime →
      ∀ k fd offset length, .send k fd offset length ∈ w.sq → (w.sends k).conn ≠ conn
    | .send k res => w.LeavesBytes k res → w.sq.length < ioUringQueueSize →
      (w.conns (w.sends k).conn).inLoop = true
  | _ => True

/-- The handlers of all responses with a request to submit are in their loops. -/
def QueuedInLoop (w : Worker) : Prop :=
  ∀ k fd offset length, .send k fd offset length ∈ w.sq → (w.conns (w.sends k).conn).inLoop = true

variable {w w' : Worker}

theorem QueuedInLoop.sendsOwn (h : w.QueuedInLoop) (hw : w.Wired) : w.SendsOwn := by
  intro k fd offset length hmem
  have hin := h k fd offset length hmem
  have hk := hw.awaited.lt_sendCount (tag_mem_of_sq hmem)
  obtain ⟨t, ht⟩ := Option.isSome_iff_exists.mp (hw.targets.sendPeer k hk)
  obtain rfl := hw.targets.queuedSend k fd offset length hmem
  exact ⟨hin, t, ht, (hw.descriptors.owns _ hin).trans ht⟩

theorem awaiting_iff_leavesBytes {k : ℕ} {res : ℤ} : w.LeavesBytes k res ↔ ∃ offset,
    sendResumed (w.sends k).message.length (w.sends k).bytesSent res = .awaiting offset := by
  rw [LeavesBytes]
  constructor
  · rintro ⟨hres, hlt⟩
    rw [sendResumed_of_nonneg hres, sendTurn_of_lt (by omega)]
    exact ⟨_, rfl⟩
  · rintro ⟨offset, hresumed⟩
    rcases Int.lt_or_le res 0 with hneg | hres
    · rw [sendResumed_of_neg hneg] at hresumed
      cases hresumed
    · refine ⟨hres, ?_⟩
      by_contra hle
      rw [sendResumed_of_nonneg hres, sendTurn_of_le (by omega)] at hresumed
      cases hresumed

theorem room_of_prepare {request : Request} (hok : w.prepare request = .ok w') :
    w.sq.length < ioUringQueueSize := by
  by_contra hfull
  rw [prepare, if_neg hfull] at hok
  cases hok

/-! ## One step -/

/-- Handlers stay in their loops, and no request of a response is prepared. -/
theorem QueuedInLoop.congr (h : w.QueuedInLoop)
    (hsq : ∀ k fd offset length, .send k fd offset length ∈ w'.sq → .send k fd offset length ∈ w.sq)
    (hconn : ∀ k, (w'.sends k).conn = (w.sends k).conn)
    (hinLoop : ∀ i, (w.conns i).inLoop = true → (w'.conns i).inLoop = true) : w'.QueuedInLoop := by
  intro k fd offset length hmem
  rw [hconn]
  exact hinLoop _ (h k fd offset length (hsq k fd offset length hmem))

/-- Only a send request is a send request. -/
theorem mem_sq_of_prepare {request : Request} (hok : w.prepare request = .ok w')
    (hne : ∀ k fd offset length, request ≠ .send k fd offset length) (k : ℕ) (fd : ℤ)
    (offset length : ℕ) (hmem : .send k fd offset length ∈ w'.sq) :
    .send k fd offset length ∈ w.sq := by
  rw [prepare_eq_ok hok] at hmem
  rcases List.mem_append.mp hmem with hmem | hmem
  · exact hmem
  · exact absurd (List.mem_singleton.mp hmem).symm (hne k fd offset length)

theorem QueuedInLoop.prepare {request : Request} (h : w.QueuedInLoop)
    (hne : ∀ k fd offset length, request ≠ .send k fd offset length)
    (hok : w.prepare request = .ok w') : w'.QueuedInLoop := by
  refine h.congr (mem_sq_of_prepare hok hne) (fun k => ?_) (fun i hi => ?_)
  · rw [prepare_eq_ok hok]
  · rw [prepare_eq_ok hok]
    exact hi

theorem QueuedInLoop.setSend (h : w.QueuedInLoop) (k : ℕ) (task : SendTask)
    (hconn : task.conn = (w.sends k).conn) : (w.setSend k task).QueuedInLoop := by
  refine h.congr (fun _ _ _ _ hmem => hmem) (fun j => ?_) fun _ hi => hi
  rcases eq_or_ne j k with rfl | hne
  · simpa [Worker.setSend] using hconn
  · simp [Worker.setSend, hne]

/-- A handler's responses are in good hands while it runs. -/
theorem QueuedInLoop.serve {conn : ℕ} {replies : List Bytes} (h : w.QueuedInLoop)
    (ha : w.Awaited (some (.recv conn))) (halive : (w.conns conn).inLoop = true)
    (hok : w.serve conn replies = .ok w') : w'.QueuedInLoop := by
  induction replies generalizing w with
  | nil => exact Except.ok.inj hok ▸ h
  | cons message replies ih =>
    obtain ⟨w₁, hsend, hrest⟩ := bind_eq_ok hok
    have ha₁ := ha.send (fun k hk => by cases hk) hsend
    have hold : ∀ (task : SendTask) k fd offset length, .send k fd offset length ∈ w.sq →
        (w.startSend task).sends k = w.sends k := fun task k fd offset length hmem =>
      Function.update_of_ne (ha.lt_sendCount (tag_mem_of_sq hmem)).ne _ _
    rcases send_eq_ok hsend with ⟨-, rfl⟩ | ⟨-, rfl⟩
    · refine ih (fun k fd offset length hmem => ?_) ha₁ halive hrest
      rcases List.mem_append.mp hmem with hmem | hmem
      · exact (congrArg (fun task : SendTask => (w.conns task.conn).inLoop)
          (hold _ k fd offset length hmem)).trans (h k fd offset length hmem)
      · obtain ⟨rfl, -⟩ := Request.send.inj (List.mem_singleton.mp hmem)
        exact (congrArg (fun task : SendTask => (w.conns task.conn).inLoop)
          (Function.update_self w.sendCount _ _)).trans halive
    · refine ih (fun k fd offset length hmem => ?_) ha₁ halive hrest
      exact (congrArg (fun task : SendTask => (w.conns task.conn).inLoop)
        (hold _ k fd offset length hmem)).trans (h k fd offset length hmem)

/-- **A dispatch that meets the condition leaves every handler with queued responses in its loop.**
-/
theorem QueuedInLoop.dispatch {replies : List Bytes} {c : Completion} {cq : List Completion}
    (h : w.QueuedInLoop) (hw : w.Wired) (hcq : w.cq = c :: cq) {left : ℕ}
    (hok : (w.cqeSeen cq left).dispatch replies c = .ok w')
    (hkeeps : w.KeepsSocket (.dispatch replies)) : w'.QueuedInLoop := by
  have hkeeps := hkeeps c (by rw [hcq]; rfl)
  have haseen := hw.awaited.cqeSeen hcq left
  have hseen : (w.cqeSeen cq left).QueuedInLoop := h
  have hraw : ∀ conn raw, ((w.cqeSeen cq left).setRaw conn raw).QueuedInLoop := fun conn raw =>
    hseen.congr (fun _ _ _ _ hmem => hmem) (fun _ => rfl) fun i hi =>
      (inLoop_setRaw conn raw i).trans hi
  have harmed : ∀ {more : Bool} {w₁ : Worker}, Armed (w.cqeSeen cq left) more w₁ →
      w₁.QueuedInLoop := by
    rintro more w₁ (_ | hok)
    · exact hseen
    · exact hseen.prepare (by simp) hok
  obtain ⟨halive, hresumed⟩ := resumed_of_dispatch hok
  cases hresumed with
  | acceptDestroyed => exact hseen
  | acceptFailed harm => exact harmed harm
  | @connected res more w₁ w' harm hres hrecv =>
    refine QueuedInLoop.prepare ?_ (by simp) hrecv
    refine (harmed harm).congr (fun _ _ _ _ hmem => hmem) (fun _ => rfl) fun i hi => ?_
    rcases eq_or_ne i w₁.connCount with rfl | hne
    · simp [Worker.connect]
    · simpa [Worker.connect, hne] using hi
  | @left conn res packet hres =>
    intro k fd offset length hmem
    have hne : (w.sends k).conn ≠ conn := hkeeps hres k fd offset length hmem
    simpa [Worker.leave, Worker.cqeSeen, hne] using h k fd offset length hmem
  | kept hpos hparse hrecv => exact (hraw _ _).prepare (by simp) hrecv
  | @served conn res packet raw request w₁ w' hpos hparse hserve hrecv =>
    exact QueuedInLoop.prepare ((hraw conn raw).serve (haseen.setRaw conn raw)
      ((inLoop_setRaw conn raw conn).trans halive) hserve) (by simp) hrecv
  | sendDestroyed => exact hseen.setSend _ _ rfl
  | sendEnded => exact hseen.setSend _ _ rfl
  | @sendAgain k offset res w' htime hresumed hok =>
    have hroom := room_of_prepare hok
    have hin := hkeeps (awaiting_iff_leavesBytes.mpr ⟨offset, hresumed⟩) hroom
    have hset := hseen.setSend k { w.sends k with released := true, bytesSent := offset } rfl
    rw [prepare_eq_ok hok]
    intro j fd offset' length hmem
    rcases List.mem_append.mp hmem with hmem | hmem
    · exact hset j fd offset' length hmem
    · obtain ⟨rfl, -⟩ := Request.send.inj (List.mem_singleton.mp hmem)
      exact (congrArg (fun task : SendTask => (w.conns task.conn).inLoop)
        (Function.update_self _ _ w.sends)).trans hin

theorem QueuedInLoop.step {a : WorkerAction} (h : w.QueuedInLoop) (hw : w.Wired)
    (hst : w.step a = some w') (ha : w.KeepsSocket a) : w'.QueuedInLoop := by
  obtain ⟨-, hstepped⟩ := stepped_of_step hst
  cases hstepped with
  | submit hloop => exact fun k fd offset length hmem => (List.not_mem_nil hmem).elim
  | collect => exact h
  | dispatch hloop hcq hok => exact h.dispatch hw hcq hok ha
  | fault => exact h
  | completeAccept => exact h
  | completeRecv => exact h
  | completeSend => exact h.setSend _ _ rfl

/-- **A handler that leaves closes the descriptor its queued responses name.** -/
theorem not_sendsOwn_leave {conn k : ℕ} {fd : ℤ} {offset length : ℕ}
    (hmem : .send k fd offset length ∈ w.sq) (hconn : (w.sends k).conn = conn) :
    ¬ (w.leave conn).SendsOwn := by
  intro hown
  have hin := (hown k fd offset length hmem).1
  change ((w.leave conn).conns (w.sends k).conn).inLoop = true at hin
  simp [Worker.leave, hconn] at hin

/-- **A short result after the handler has left queues a request without a socket.** -/
theorem not_sendsOwn_sendAgain (replies : List Bytes) {k : ℕ} {res : ℤ}
    (halive : w.alive (.send k) = true) (hleaves : w.LeavesBytes k res)
    (hroom : w.sq.length < ioUringQueueSize) (hleft : (w.conns (w.sends k).conn).inLoop = false) :
    ∃ w', w.dispatch replies (.send k res) = .ok w' ∧ ¬ w'.SendsOwn := by
  obtain ⟨offset, hresumed⟩ := awaiting_iff_leavesBytes.mp hleaves
  have htime : res ≠ -etime := fun h => absurd (h ▸ hleaves.1) (by decide)
  refine ⟨{ w.setSend k { w.sends k with released := true, bytesSent := offset } with
    sq := w.sq ++ [.send k (w.conns (w.sends k).conn).rawFileDescriptor offset
      (w.sends k).message.length] }, ?_, fun hown => ?_⟩
  · rw [dispatch, Completion.tag, halive, if_neg (by decide), Completion.res, if_neg htime]
    simp only [resume, resumeSend, hresumed]
    exact if_pos hroom
  · have hin := (hown k _ offset _ (List.mem_append_right _ (List.mem_singleton_self _))).1
    have hself : (w.conns (Function.update w.sends k { w.sends k with
        released := true, bytesSent := offset } k).conn).inLoop = true := hin
    rw [Function.update_self, hleft] at hself
    cases hself

/-- **A step that misses the condition leaves a request without its socket.** -/
theorem Wired.not_sendsOwn {a : WorkerAction} (hw : w.Wired) (hst : w.step a = some w')
    (ha : ¬ w.KeepsSocket a) : ¬ w'.SendsOwn := by
  obtain ⟨hfault, hstepped⟩ := stepped_of_step hst
  cases a with
  | submit | collect | completeAccept | completeRecv | completeSend => exact absurd trivial ha
  | dispatch replies =>
    obtain ⟨left, c, cq, hloop, hcq⟩ :
        ∃ left c cq, w.loop = .batch (left + 1) ∧ w.cq = c :: cq := by
      cases hstepped with
      | dispatch hloop hcq hok => exact ⟨_, _, _, hloop, hcq⟩
      | fault hloop hcq herr => exact ⟨_, _, _, hloop, hcq⟩
    have hmem : c ∈ w.cq := hcq ▸ List.mem_cons_self
    simp only [KeepsSocket, hcq, List.head?_cons, Option.mem_def, Option.some.injEq,
      forall_eq'] at ha
    -- the coroutine is alive, so the dispatch comes to pass
    cases c with
    | accept res more => exact absurd trivial ha
    | recv conn res packet =>
      have halive := (hw.awaited.alive_of_mem (by simp [Completion.tag]) (tag_mem_of_cq hmem)).1
      push Not at ha
      obtain ⟨hres, k, fd, offset, length, hsq, hconn⟩ := ha
      have hok : (w.cqeSeen cq left).dispatch replies (.recv conn res packet)
          = .ok ((w.cqeSeen cq left).leave conn) := by
        have halive' : (w.cqeSeen cq left).alive (.recv conn) = true := halive
        rw [dispatch, Completion.tag, halive', if_neg (by decide), Completion.res]
        rcases hres with rfl | rfl
        · rw [if_neg (by decide), resume, handleClient, if_pos rfl]
        · exact if_pos rfl
      rw [step_dispatch_ok hfault hloop hcq hok] at hst
      rw [← Option.some.inj hst]
      exact not_sendsOwn_leave hsq hconn
    | send k res =>
      have halive := (hw.awaited.alive_of_mem (by simp [Completion.tag]) (tag_mem_of_cq hmem)).1
      push Not at ha
      obtain ⟨hleaves, hroom, hleft⟩ := ha
      obtain ⟨t, hok, hnot⟩ := not_sendsOwn_sendAgain (w := w.cqeSeen cq left) replies
        halive hleaves hroom (Bool.eq_false_iff.mpr hleft)
      rw [step_dispatch_ok hfault hloop hcq hok] at hst
      exact Option.some.inj hst ▸ hnot

end Worker

theorem queuedInLoop_init : Worker.QueuedInLoop workerSystem.init := by
  intro k fd offset length hmem
  cases List.mem_singleton.mp hmem

/-- **Sends keep to their connections exactly when short results find the handler in its loop and it
leaves no request behind.** -/
theorem sendsOwn_iff (run : List WorkerAction) :
    (∀ w ∈ workerSystem.visited run, w.SendsOwn) ↔
      ∀ m ∈ workerSystem.moves run, m.src.KeepsSocket m.act :=
  System.forall_visited_iff_moves (fun w : Worker => w.Wired ∧ w.QueuedInLoop)
    ⟨wired_init, queuedInLoop_init⟩ (fun _ h => h.2.sendsOwn h.1)
    (fun _ _ _ h hst ha => ⟨h.1.step hst, h.2.step h.1 hst ha⟩)
    (fun _ _ _ h hst ha => h.1.not_sendsOwn hst ha) run

/-- A client sends a request and closes its side; of the response only the status line goes out at
once. -/
def halfCloseRun : List WorkerAction :=
  [.submit, .completeAccept 0 5 true, .collect, .dispatch [], .submit,
    .completeRecv 1 18 (ascii "GET / HTTP/1.1\r\n\r\n"), .collect,
    .dispatch [ascii "HTTP/1.0 200 OK\r\nContent-Length:2\r\n\r\nok"], .submit,
    .completeRecv 2 0 [], .completeSend 1 17 (ascii "HTTP/1.0 200 OK\r\n"), .collect,
    .dispatch [], .dispatch []]

/-- **The rest of the response goes to a closed descriptor.** -/
theorem not_sendsOwn_halfCloseRun : ¬ ∀ w ∈ workerSystem.visited halfCloseRun, w.SendsOwn := by
  intro h
  obtain ⟨w, hrun, hsq, hfds⟩ : ∃ w, workerSystem.run halfCloseRun = some w ∧
      w.sq = [.send 0 5 17 39] ∧ w.fds 5 = none := ⟨_, rfl, rfl, rfl⟩
  obtain ⟨-, t, -, ht⟩ := h w (workerSystem.mem_visited_of_run hrun) 0 5 17 39
    (hsq ▸ List.mem_singleton_self _)
  rw [hfds] at ht
  cases ht

end YServer
