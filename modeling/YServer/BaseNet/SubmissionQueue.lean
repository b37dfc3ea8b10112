import YServer.BaseNet.Worker

/-!
# BaseNet/SubmissionQueue — does the submission queue run out?

Between two submissions a batch of completions is dispatched, and each resumed coroutine prepares
the requests it goes on to wait for:

    accept      1 recv for the connection, 1 accept if the multishot one is over
    recv        1 recv, and 1 send for each message the handler sends
    send        1 send if the message is not out yet

The completion queue is twice as long as the submission queue, and the wrappers do not look at what
`io_uring_get_sqe` returns, so nothing but the room that is left decides (`neverNull_iff`).
-/

namespace YServer

open Machinery

namespace Worker

/-! ## What a dispatch prepares -/

/-- How many requests a coroutine prepares when it is resumed with a completion. -/
def resumeDemand (w : Worker) (replies : List Bytes) : Completion → ℕ
  | .accept res more => (if more then 0 else 1) + (if res = -1 then 0 else 1)
  | .recv conn res packet =>
    if res ≤ 0 then 0
    else
      match parsePacket (w.conns conn).rawHttpRequest packet with
      | .error _ => 0
      | .ok (none, _) => 1
      | .ok (some _, _) => replies.countP (0 < ·.length) + 1
  | .send k res =>
    match sendResumed (w.sends k).message.length (w.sends k).bytesSent res with
    | .awaiting _ => 1
    | .returned _ => 0

/-- …and how many when the event loop dispatches it. -/
def demand (w : Worker) (replies : List Bytes) (c : Completion) : ℕ :=
  if w.alive c.tag = false ∨ c.res = -etime then 0 else w.resumeDemand replies c

/-- There is room for what the next dispatch prepares. -/
def HasRoom (w : Worker) : WorkerAction → Prop
  | .dispatch replies => ∀ c ∈ w.cq.head?, w.sq.length + w.demand replies c ≤ ioUringQueueSize
  | _ => True

/-- A computation that prepares `n` requests, and dereferences null if they do not fit. -/
structure Costs (w : Worker) (n : ℕ) (result : Except Fault Worker) : Prop where
  fits : w.sq.length + n ≤ ioUringQueueSize →
    ∃ w', result = .ok w' ∧ w'.sq.length = w.sq.length + n
  overruns : ioUringQueueSize < w.sq.length + n → result = .error .nullSqe

variable {w w' : Worker} {m n : ℕ}

theorem costs_ok (hw : w'.sq.length = w.sq.length) (hle : w.sq.length ≤ ioUringQueueSize) :
    Costs w 0 (.ok w') :=
  ⟨fun _ => ⟨w', rfl, hw⟩, fun hlt => absurd hle hlt.not_ge⟩

/-- **Costs add up.** -/
theorem Costs.bind {result : Except Fault Worker} {f : Worker → Except Fault Worker}
    (h : Costs w m result) (hf : ∀ w', result = .ok w' → w'.sq.length = w.sq.length + m →
      w'.sq.length ≤ ioUringQueueSize → Costs w' n (f w')) : Costs w (m + n) (result >>= f) := by
  rcases Nat.lt_or_ge ioUringQueueSize (w.sq.length + m) with hlt | hle
  · refine ⟨fun hfit => absurd hlt (by omega), fun _ => ?_⟩
    rw [h.overruns hlt]
    rfl
  · obtain ⟨w', rfl, hlen⟩ := h.fits hle
    have hnext := hf w' rfl hlen (hlen.trans_le hle)
    constructor
    · intro hfit
      obtain ⟨w'', hok, hlen'⟩ := hnext.fits (by omega)
      exact ⟨w'', hok, by omega⟩
    · exact fun hlt => hnext.overruns (by omega)

/-- A computation costs the same from a state with as many requests prepared. -/
theorem Costs.of_length {result : Except Fault Worker} (h : Costs w' n result)
    (hw : w'.sq.length = w.sq.length) : Costs w n result := by
  constructor
  · rw [← hw]; exact h.fits
  · rw [← hw]; exact h.overruns

theorem costs_prepare (request : Request) : Costs w 1 (w.prepare request) := by
  constructor
  · intro hfit
    refine ⟨_, if_pos (Nat.lt_of_succ_le hfit), ?_⟩
    exact List.length_append
  · exact fun hlt => if_neg (by omega)

theorem costs_recv (conn : ℕ) : Costs w 1 (w.recv conn) := costs_prepare _

theorem costs_send (conn : ℕ) (message : Bytes) (hle : w.sq.length ≤ ioUringQueueSize) :
    Costs w (if 0 < message.length then 1 else 0) (w.send conn message) := by
  rw [send]
  by_cases hpos : 0 < message.length
  · rw [sendTurn_of_lt hpos, if_pos hpos]
    exact (costs_prepare _).of_length rfl
  · rw [sendTurn_of_le (Nat.le_of_not_lt hpos), if_neg hpos]
    exact costs_ok rfl hle

/-- **A handler's messages cost one request each**, the empty ones nothing. -/
theorem costs_serve (conn : ℕ) (replies : List Bytes) (hle : w.sq.length ≤ ioUringQueueSize) :
    Costs w (replies.countP (0 < ·.length)) (w.serve conn replies) := by
  induction replies generalizing w with
  | nil => exact costs_ok rfl hle
  | cons message replies ih =>
    rw [serve, List.foldlM_cons, List.countP_cons, Nat.add_comm]
    simp only [decide_eq_true_eq]
    exact (costs_send conn message hle).bind fun w' _ _ hle' => ih hle'

theorem costs_resumeSend (k : ℕ) (res : ℤ) (replies : List Bytes)
    (hle : w.sq.length ≤ ioUringQueueSize) :
    Costs w (w.resumeDemand replies (.send k res)) (w.resumeSend k res) := by
  rw [resumeSend, resumeDemand]
  cases sendResumed (w.sends k).message.length (w.sends k).bytesSent res with
  | awaiting offset => exact (costs_prepare _).of_length rfl
  | returned value => exact costs_ok rfl hle

theorem costs_acceptClient (res : ℤ) (more : Bool) (replies : List Bytes)
    (hle : w.sq.length ≤ ioUringQueueSize) :
    Costs w (w.resumeDemand replies (.accept res more)) (w.acceptClient res more) := by
  rw [acceptClient, resumeDemand]
  refine Costs.bind ?_ fun w' _ _ hle' => ?_
  · cases more
    · exact costs_prepare _
    · exact costs_ok rfl hle
  · by_cases hres : res = -1
    · rw [if_pos hres, if_pos hres]
      exact costs_ok rfl hle'
    · rw [if_neg hres, if_neg hres]
      exact (costs_recv _).of_length rfl

/-- **`handle_client` costs what its completion demands**, if it does not end on a fault of its own.
-/
theorem costs_handleClient (conn : ℕ) (res : ℤ) (packet : Bytes) (replies : List Bytes)
    (hle : w.sq.length ≤ ioUringQueueSize) :
    Costs w (w.resumeDemand replies (.recv conn res packet))
      (w.handleClient conn res packet replies) ∨
      w.resumeDemand replies (.recv conn res packet) = 0 ∧
        ∃ fault ≠ .nullSqe, w.handleClient conn res packet replies = .error fault := by
  rw [handleClient, resumeDemand]
  rcases lt_trichotomy res 0 with hneg | rfl | hpos
  · rw [if_neg hneg.ne, if_pos hneg, if_pos hneg.le]
    exact Or.inr ⟨rfl, _, by decide, rfl⟩
  · exact Or.inl (costs_ok rfl hle)
  · rw [if_neg hpos.ne', if_neg hpos.not_gt, if_neg hpos.not_ge]
    rcases hparse : parsePacket (w.conns conn).rawHttpRequest packet with fault | ⟨_ | request, raw⟩
    · refine Or.inr ⟨rfl, fault, ?_, rfl⟩
      rw [eq_outOfRange_of_parsePacket hparse]
      decide
    · exact Or.inl ((costs_recv conn).of_length rfl)
    · refine Or.inl (Costs.bind ?_ fun w' _ _ _ => costs_recv conn)
      exact Costs.of_length (costs_serve conn replies hle) rfl

theorem costs_dispatch (replies : List Bytes) (c : Completion)
    (hle : w.sq.length ≤ ioUringQueueSize) :
    Costs w (w.demand replies c) (w.dispatch replies c) ∨
      w.demand replies c = 0 ∧ ∃ fault ≠ .nullSqe, w.dispatch replies c = .error fault := by
  rw [dispatch, demand]
  by_cases halive : w.alive c.tag = false
  · rw [if_pos halive, if_pos (Or.inl halive)]
    exact Or.inr ⟨rfl, _, by decide, rfl⟩
  · by_cases htime : c.res = -etime
    · rw [if_neg halive, if_pos htime, if_pos (Or.inr htime)]
      refine Or.inl (costs_ok ?_ hle)
      cases c <;> rfl
    · rw [if_neg halive, if_neg htime, if_neg (not_or.mpr ⟨halive, htime⟩)]
      cases c with
      | accept res more => exact Or.inl (costs_acceptClient res more replies hle)
      | recv conn res packet => exact costs_handleClient conn res packet replies hle
      | send k res => exact Or.inl (costs_resumeSend k res replies hle)

/-! ## One step -/

/-- The invariant: nobody has overrun the queue. -/
structure Within (w : Worker) : Prop where
  length_le : w.sq.length ≤ ioUringQueueSize
  neverNull : w.fault ≠ some .nullSqe

/-- **A dispatch for which there is room stays within the queue.** -/
theorem length_le_of_dispatch {replies : List Bytes} {c : Completion}
    (hle : w.sq.length ≤ ioUringQueueSize)
    (hroom : w.sq.length + w.demand replies c ≤ ioUringQueueSize)
    (hok : w.dispatch replies c = .ok w') : w'.sq.length ≤ ioUringQueueSize := by
  rcases costs_dispatch replies c hle with hcosts | ⟨-, fault, -, herr⟩
  · obtain ⟨w'', hok', hlen⟩ := hcosts.fits hroom
    obtain rfl : w'' = w' := Except.ok.inj (hok'.symm.trans hok)
    exact hlen.trans_le hroom
  · rw [herr] at hok
    cases hok

/-- …and ends on no null. -/
theorem ne_nullSqe_of_dispatch {replies : List Bytes} {c : Completion} {fault : Fault}
    (hle : w.sq.length ≤ ioUringQueueSize)
    (hroom : w.sq.length + w.demand replies c ≤ ioUringQueueSize)
    (herr : w.dispatch replies c = .error fault) : fault ≠ .nullSqe := by
  rcases costs_dispatch replies c hle with hcosts | ⟨-, fault', hne, herr'⟩
  · obtain ⟨w', hok, -⟩ := hcosts.fits hroom
    rw [hok] at herr
    cases herr
  · rwa [← Except.error.inj (herr'.symm.trans herr)]

/-- **A dispatch for which there is none dereferences null.** -/
theorem nullSqe_of_dispatch {replies : List Bytes} {c : Completion}
    (hle : w.sq.length ≤ ioUringQueueSize)
    (hroom : ioUringQueueSize < w.sq.length + w.demand replies c) :
    w.dispatch replies c = .error .nullSqe := by
  rcases costs_dispatch replies c hle with hcosts | ⟨hzero, -⟩
  · exact hcosts.overruns hroom
  · exact absurd hroom (by omega)

/-- What the completion demands does not depend on the queue it is taken from. -/
theorem demand_cqeSeen (cq : List Completion) (left : ℕ) (replies : List Bytes) (c : Completion) :
    (w.cqeSeen cq left).demand replies c = w.demand replies c := by
  cases c <;> rfl

theorem Within.step {t : Worker} {a : WorkerAction} (h : w.Within) (hst : w.step a = some t)
    (ha : w.HasRoom a) : t.Within := by
  obtain ⟨hfault, hstepped⟩ := stepped_of_step hst
  cases hstepped with
  | submit => exact ⟨Nat.zero_le _, h.neverNull⟩
  | collect => exact ⟨h.length_le, h.neverNull⟩
  | @dispatch replies left c cq t hloop hcq hok =>
    have hroom := ha c (by rw [hcq]; rfl)
    refine ⟨length_le_of_dispatch (w := w.cqeSeen cq left) h.length_le
      (by rwa [demand_cqeSeen]) hok, ?_⟩
    rw [(SameKernel.dispatch hok).fault]
    exact h.neverNull
  | @fault replies left c cq fault hloop hcq herr =>
    have hroom := ha c (by rw [hcq]; rfl)
    refine ⟨h.length_le, fun hnull => ?_⟩
    exact ne_nullSqe_of_dispatch (w := w.cqeSeen cq left) h.length_le (by rwa [demand_cqeSeen]) herr
      (Option.some.inj hnull)
  | completeAccept => exact ⟨h.length_le, h.neverNull⟩
  | completeRecv => exact ⟨h.length_le, h.neverNull⟩
  | completeSend => exact ⟨h.length_le, h.neverNull⟩

theorem Within.not_neverNull {t : Worker} {a : WorkerAction} (h : w.Within)
    (hst : w.step a = some t) (ha : ¬ w.HasRoom a) : ¬ t.fault ≠ some .nullSqe := by
  obtain ⟨hfault, hstepped⟩ := stepped_of_step hst
  -- only a dispatch can lack room, and then it dereferences null
  have hnull : ∀ {replies : List Bytes} {left : ℕ} {c : Completion} {cq : List Completion},
      w.cq = c :: cq → ¬ w.HasRoom (.dispatch replies) →
      (w.cqeSeen cq left).dispatch replies c = .error .nullSqe := by
    intro replies left c cq hcq hno
    refine nullSqe_of_dispatch (w := w.cqeSeen cq left) h.length_le ?_
    rw [demand_cqeSeen]
    by_contra hle
    refine hno fun c' hc' => ?_
    rw [hcq, List.head?_cons, Option.mem_some_iff] at hc'
    rw [← hc']
    exact Nat.le_of_not_lt hle
  cases hstepped with
  | @dispatch replies left c cq t hloop hcq hok =>
    rw [hnull hcq ha] at hok
    cases hok
  | @fault replies left c cq fault hloop hcq herr =>
    rw [hnull hcq ha] at herr
    rw [← Except.error.inj herr]
    exact not_not.mpr rfl
  | submit => exact absurd trivial ha
  | collect => exact absurd trivial ha
  | completeAccept => exact absurd trivial ha
  | completeRecv => exact absurd trivial ha
  | completeSend => exact absurd trivial ha

end Worker

/-! ## Whole runs -/

theorem within_init : Worker.Within workerSystem.init := ⟨by decide, by decide⟩

/-- **`io_uring_get_sqe` never returns null throughout a run exactly when each dispatch of the run
finds room for what it prepares.** -/
theorem neverNull_iff (run : List WorkerAction) :
    (∀ w ∈ workerSystem.visited run, w.fault ≠ some .nullSqe) ↔
      ∀ m ∈ workerSystem.moves run, m.src.HasRoom m.act :=
  System.forall_visited_iff_moves Worker.Within within_init (fun _ hw => hw.neverNull)
    (fun _ _ _ hw hst ha => hw.step hst ha) (fun _ _ _ hw hst ha => hw.not_neverNull hst ha) run

/-! ## A burst of connections -/

/-- A connection accepted at a descriptor, with more to come. -/
def acceptedAt (fd : ℕ) : Completion := .accept fd true

namespace Worker

variable {w : Worker}

/-- An accepted connection costs its recv. -/
theorem dispatch_acceptedAt (haccepting : w.accepting = true) (fd : ℕ) :
    w.dispatch [] (acceptedAt fd) = (w.connect fd).recv w.connCount := by
  have halive : ¬ w.alive (acceptedAt fd).tag = false := by
    rw [Bool.not_eq_false]
    exact haccepting
  have htime : ¬ (acceptedAt fd).res = -etime := by
    change ¬ (fd : ℤ) = -62
    omega
  have hgood : ¬ (fd : ℤ) = -1 := by omega
  rw [dispatch, if_neg halive, if_neg htime]
  change (if (fd : ℤ) = -1 then Except.ok w else (w.connect fd).recv w.connCount) = _
  rw [if_neg hgood]

/-- **The kernel can fill the completion queue with accepted connections** — by induction on how
many; the descriptors from `fd` on are free. -/
theorem run_completeAccept (n : ℕ) : ∀ {w : Worker} (fd : ℕ), w.fault = none →
    w.kernel = [⟨.accept, none⟩] → w.cq.length + n ≤ 2 * ioUringQueueSize →
    (∀ fd' : ℕ, fd ≤ fd' → w.fds fd' = none) →
    ∃ w', workerSystem.runFrom w ((List.range' fd n).map fun fd : ℕ => .completeAccept 0 fd true)
        = some w' ∧
      w'.cq = w.cq ++ (List.range' fd n).map acceptedAt ∧ w'.sq = w.sq ∧
      w'.loop = w.loop ∧ w'.accepting = w.accepting ∧ w'.fault = none := by
  induction n with
  | zero => exact fun _ hfault _ _ _ => ⟨_, rfl, (List.append_nil _).symm, rfl, rfl, rfl, hfault⟩
  | succ n ih =>
    intro w fd hfault hkernel hroom hfree
    have hstep : w.step (.completeAccept 0 fd true) = some (w.completeAccept 0 fd true) := by
      simp only [step, hfault, Option.isSome_none, Bool.false_eq_true, if_false, hkernel,
        List.getElem?_cons_zero]
      exact if_pos ⟨by omega, hfree fd (Nat.le_refl fd)⟩
    have hlength : (w.completeAccept 0 fd true).cq.length = w.cq.length + 1 := List.length_append
    have hfree' : ∀ fd' : ℕ, fd + 1 ≤ fd' → (w.completeAccept 0 fd true).fds fd' = none := by
      intro fd' hle
      rw [completeAccept]
      simp only [Int.natCast_nonneg, if_true]
      rw [Function.update_of_ne (by omega)]
      exact hfree fd' (by omega)
    obtain ⟨w', hrun, hcq, hsq, hloop, haccepting, hfault'⟩ :=
      ih (w := w.completeAccept 0 fd true) (fd + 1) hfault hkernel (by omega) hfree'
    refine ⟨w', ?_, ?_, hsq, hloop, haccepting, hfault'⟩
    · rw [List.range'_succ, List.map_cons, System.runFrom_cons]
      exact (congrArg (Option.bind · _) hstep).trans hrun
    · rw [hcq, List.range'_succ, List.map_cons]
      exact List.append_assoc _ [acceptedAt fd] _

/-- **A batch of connections one longer than the room that is left dereferences null** — by
induction on the batch; each connection but the last takes an entry. -/
theorem run_dispatch_acceptedAt (fds : List ℕ) : ∀ {w : Worker}, w.fault = none →
    w.accepting = true → w.loop = .batch fds.length → w.cq = fds.map acceptedAt →
    w.sq.length + fds.length = ioUringQueueSize + 1 → w.sq.length ≤ ioUringQueueSize →
    ∃ w', workerSystem.runFrom w (List.replicate fds.length (.dispatch [])) = some w' ∧
      w'.fault = some .nullSqe := by
  induction fds with
  | nil =>
    intro w _ _ _ _ hlen hle
    exact absurd hlen (by rw [List.length_nil]; omega)
  | cons fd fds ih =>
    intro w hfault haccepting hloop hcq hlen hle
    rw [List.length_cons] at hlen hloop ⊢
    have hdispatch : (w.cqeSeen (fds.map acceptedAt) fds.length).dispatch [] (acceptedAt fd)
        = ((w.cqeSeen (fds.map acceptedAt) fds.length).connect fd).recv w.connCount :=
      dispatch_acceptedAt (w := w.cqeSeen (fds.map acceptedAt) fds.length) haccepting fd
    have hcosts :=
      costs_recv (w := (w.cqeSeen (fds.map acceptedAt) fds.length).connect fd) w.connCount
    rw [List.replicate_succ, System.runFrom_cons]
    rcases Nat.lt_or_ge w.sq.length ioUringQueueSize with hlt | hge
    · obtain ⟨w₁, hrecv, hlen₁⟩ := hcosts.fits hlt
      have hstep := step_dispatch_ok hfault hloop hcq (hdispatch.trans hrecv)
      have hsq : w₁.sq.length = w.sq.length + 1 := hlen₁
      obtain ⟨w', hrun, hnull⟩ := @ih w₁ (by rw [prepare_eq_ok hrecv]; exact hfault)
        (by rw [prepare_eq_ok hrecv]; exact haccepting) (by rw [prepare_eq_ok hrecv]; rfl)
        (by rw [prepare_eq_ok hrecv]; rfl) (by omega) (by omega)
      exact ⟨w', (congrArg (Option.bind · _) hstep).trans hrun, hnull⟩
    · obtain rfl : fds = [] := List.length_eq_zero_iff.mp (by omega)
      have herr := hcosts.overruns (Nat.lt_succ_of_le hge)
      have hstep := step_dispatch_error hfault hloop hcq (hdispatch.trans herr)
      exact ⟨_, congrArg (Option.bind · _) hstep, rfl⟩

end Worker

/-- A batch of so many accepted connections. -/
def acceptBurst (n : ℕ) : List WorkerAction :=
  .submit :: ((List.range' 0 n).map (fun fd : ℕ => .completeAccept 0 fd true) ++
    .collect :: List.replicate n (.dispatch []))

/-- **A burst of one connection more than the queue has entries finds it full.** -/
theorem exists_run_acceptBurst {n : ℕ} (hn : n = ioUringQueueSize + 1) :
    ∃ w, workerSystem.run (acceptBurst n) = some w ∧ w.fault = some .nullSqe := by
  have hsize : ioUringQueueSize = 2048 := rfl
  obtain ⟨w₁, hsubmit, hcq₁, hsq₁, hkernel₁, hloop₁, haccepting₁, hfault₁, hfds₁⟩ :
      ∃ w₁ : Worker, workerSystem.step workerSystem.init .submit = some w₁ ∧ w₁.cq = [] ∧
        w₁.sq = [] ∧ w₁.kernel = [⟨.accept, none⟩] ∧ w₁.loop = .waiting ∧ w₁.accepting = true ∧
        w₁.fault = none ∧ ∀ fd, w₁.fds fd = none :=
    ⟨_, rfl, rfl, rfl, rfl, rfl, rfl, rfl, fun _ => rfl⟩
  obtain ⟨w₂, hrun₂, hcq₂, hsq₂, hloop₂, haccepting₂, hfault₂⟩ :=
    Worker.run_completeAccept n 0 hfault₁ hkernel₁
      (by rw [hcq₁, List.length_nil]; omega) fun fd _ => hfds₁ fd
  rw [hcq₁, List.nil_append] at hcq₂
  have hlength : w₂.cq.length = n := by rw [hcq₂, List.length_map, List.length_range']
  have hcollect : workerSystem.step w₂ .collect = some { w₂ with loop := .batch w₂.cq.length } := by
    have hne : w₂.cq ≠ [] := List.length_pos_iff.mp (by omega)
    change w₂.step .collect = _
    simp only [Worker.step, hfault₂, Option.isSome_none, Bool.false_eq_true, if_false]
    exact if_pos ⟨hloop₂.trans hloop₁, hne⟩
  obtain ⟨w₃, hrun₃, hnull⟩ := Worker.run_dispatch_acceptedAt (List.range' 0 n)
    (w := { w₂ with loop := .batch w₂.cq.length }) hfault₂ (haccepting₂.trans haccepting₁)
    (by rw [hlength, List.length_range']) hcq₂
    (by rw [hsq₂, hsq₁, List.length_range', List.length_nil, Nat.zero_add, hn])
    (by rw [hsq₂, hsq₁, List.length_nil]; exact Nat.zero_le _)
  refine ⟨w₃, ?_, hnull⟩
  rw [List.length_range'] at hrun₃
  rw [acceptBurst, System.run, System.runFrom_cons, hsubmit, Option.bind_some,
    System.runFrom_append, hrun₂, Option.bind_some, System.runFrom_cons, hcollect]
  exact hrun₃

/-- **2049 connections at once.** -/
theorem not_neverNull_acceptBurst :
    ¬ ∀ w ∈ workerSystem.visited (acceptBurst 2049), w.fault ≠ some .nullSqe := by
  intro h
  obtain ⟨w, hrun, hnull⟩ := exists_run_acceptBurst (n := 2049) rfl
  exact h w (workerSystem.mem_visited_of_run hrun) hnull

end YServer
