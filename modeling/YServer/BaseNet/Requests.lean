import YServer.BaseNet.Outstanding
import Mathlib.Algebra.GroupWithZero.Nat

/-!
# BaseNet/Requests — does a completion resume the coroutine that waits for it?

The requests of handlers and send coroutines are counted one by one (`BaseNet/Outstanding`).  The
accept coroutine has one request with many completions, and the last of them makes it ask again:

    accept ─▶ cqe more, cqe more, …, cqe ── await_resume ──▶ accept ─▶ cqe more, …

Its requests are the ones that are prepared, in the kernel, or over without the coroutine having
been told.  There is one of them at any time, so no completion names a coroutine that has gone and
none is awaited twice (`oneRequestEach_of_visited`).
-/

namespace YServer

open Machinery

/-- How many accepts `await_resume` prepares when it is given a completion. -/
def Completion.rearms : Completion → ℕ
  | .accept _ false => 1
  | .accept _ true | .recv _ _ _ | .send _ _ => 0

namespace Worker

/-- The multishot accepts that are prepared, in the kernel, or over and not armed again yet. -/
def armed (w : Worker) : ℕ :=
  w.sq.count .accept + (w.kernel.map InFlight.request).count .accept
    + (w.cq.map Completion.rearms).sum

/-- **One outstanding request for each suspended coroutine**, and none for any other. -/
structure OneRequestEach (w : Worker) : Prop where
  /-- Every request and every completion names a coroutine that is suspended on it. -/
  named : ∀ tag ∈ w.outstanding, w.alive tag = true
  once : ∀ tag, tag ≠ .accept → w.alive tag = true → w.outstanding.count tag = 1
  accepting : w.alive .accept = true
  armed : w.armed = 1
  /-- No completion has resumed or destroyed a coroutine that was gone. -/
  reached : w.fault ≠ some .deadCoroutine

/-- The kernel does not answer an accept with `-ETIME`. -/
def NoAcceptTimeout : WorkerAction → Prop
  | .completeAccept _ res _ => res ≠ -etime
  | .submit | .collect | .dispatch _ | .completeRecv _ _ _ | .completeSend _ _ _ => True

/-- **Armed again exactly when a completion says it was the last** — a move that dispatches a
completion prepares as many accepts as that. -/
def Rearms (m : Move Worker WorkerAction) : Prop :=
  ∀ replies, m.act = .dispatch replies → m.dst.fault = none → ∀ c ∈ m.src.cq.head?,
    m.dst.sq.count .accept = m.src.sq.count .accept + c.rearms

/-- **The accept coroutine waits**, with one multishot accept; `rearming` is 1 while it is being
told that the last one is over. -/
structure Accepting (rearming : ℕ) (w : Worker) : Prop where
  accepting : w.accepting = true
  armed : w.armed + rearming = 1
  noTimeout : ∀ c ∈ w.cq, c.tag = .accept → c.res ≠ -etime

variable {w w' : Worker}

/-! ## What a coroutine prepares -/

/-- Nothing about the accept coroutine has changed but the accepts it has prepared. -/
structure SameAccept (n : ℕ) (w w' : Worker) : Prop where
  accepting : w'.accepting = w.accepting
  kernel : w'.kernel = w.kernel
  cq : w'.cq = w.cq
  count : w'.sq.count .accept = w.sq.count .accept + n

theorem SameAccept.of_eq (haccepting : w'.accepting = w.accepting) (hkernel : w'.kernel = w.kernel)
    (hcq : w'.cq = w.cq) (hsq : w'.sq = w.sq) : SameAccept 0 w w' :=
  ⟨haccepting, hkernel, hcq, by rw [hsq, Nat.add_zero]⟩

theorem SameAccept.trans {m n : ℕ} {w'' : Worker} (h : SameAccept m w w')
    (h' : SameAccept n w' w'') : SameAccept (m + n) w w'' :=
  ⟨h'.accepting.trans h.accepting, h'.kernel.trans h.kernel, h'.cq.trans h.cq, by
    rw [h'.count, h.count, Nat.add_assoc]⟩

theorem SameAccept.prepare {request : Request} (hok : w.prepare request = .ok w') :
    SameAccept (if request = .accept then 1 else 0) w w' := by
  rw [prepare_eq_ok hok]
  refine ⟨rfl, rfl, rfl, ?_⟩
  rw [List.count_append, List.count_singleton]
  simp only [beq_iff_eq]

theorem SameAccept.recv {conn : ℕ} (hok : w.recv conn = .ok w') : SameAccept 0 w w' :=
  SameAccept.prepare hok

theorem SameAccept.serve {conn : ℕ} {replies : List Bytes} (hok : w.serve conn replies = .ok w') :
    SameAccept 0 w w' := by
  induction replies generalizing w with
  | nil =>
    rw [← Except.ok.inj hok]
    exact .of_eq rfl rfl rfl rfl
  | cons message replies ih =>
    obtain ⟨w₁, hsend, hrest⟩ := bind_eq_ok hok
    refine SameAccept.trans (m := 0) ?_ (ih hrest)
    rcases send_eq_ok hsend with ⟨-, rfl⟩ | ⟨-, rfl⟩
    · refine ⟨rfl, rfl, rfl, ?_⟩
      rw [List.count_append, List.count_singleton]
      rfl
    · exact .of_eq rfl rfl rfl rfl

/-- **A resumed coroutine prepares an accept if it is told so**, and the accept coroutine stays
unless it is destroyed. -/
theorem SameAccept.resumed {replies : List Bytes} {c : Completion} (h : w.Resumed replies c w')
    (htime : c.tag = .accept → c.res ≠ -etime) : SameAccept c.rearms w w' := by
  have harmed : ∀ {res : ℤ} {more : Bool} {w₁ : Worker}, Armed w more w₁ →
      SameAccept (Completion.accept res more).rearms w w₁ := by
    rintro res more w₁ (_ | hok)
    · exact .of_eq rfl rfl rfl rfl
    · exact SameAccept.prepare hok
  cases h with
  | acceptDestroyed => exact absurd rfl (htime rfl)
  | acceptFailed harm => exact harmed harm
  | @connected res more w₁ w' harm hres hrecv =>
    have hconnect : SameAccept 0 w₁ (w₁.connect res) := .of_eq rfl rfl rfl rfl
    exact ((harmed harm).trans hconnect).trans (.recv hrecv)
  | left hres => exact .of_eq rfl rfl rfl rfl
  | @kept conn res packet raw w' hpos hparse hrecv =>
    have hraw : SameAccept 0 w (w.setRaw conn raw) := .of_eq rfl rfl rfl rfl
    exact hraw.trans (.recv hrecv)
  | @served conn res packet raw request w₁ w' hpos hparse hserve hrecv =>
    have hraw : SameAccept 0 w (w.setRaw conn raw) := .of_eq rfl rfl rfl rfl
    exact (hraw.trans (.serve hserve)).trans (.recv hrecv)
  | sendDestroyed => exact .of_eq rfl rfl rfl rfl
  | sendEnded => exact .of_eq rfl rfl rfl rfl
  | @sendAgain k offset res w' htime hresumed hok =>
    have hsend : SameAccept 0 w
        (w.setSend k { w.sends k with released := true, bytesSent := offset }) :=
      .of_eq rfl rfl rfl rfl
    exact SameAccept.trans (n := 0) hsend (.prepare hok)

/-! ## The accept coroutine over a run -/

/-- A completion that is taken from the queue may be the last of its accept. -/
theorem Accepting.cqeSeen (h : w.Accepting 0) {c : Completion} {cq : List Completion}
    (hcq : w.cq = c :: cq) (left : ℕ) : (w.cqeSeen cq left).Accepting c.rearms := by
  refine ⟨h.accepting, ?_, fun c' hc' => h.noTimeout c' (hcq ▸ List.mem_cons_of_mem c hc')⟩
  have harmed := h.armed
  rw [Worker.armed, hcq, List.map_cons, List.sum_cons] at harmed
  change w.sq.count .accept + (w.kernel.map InFlight.request).count .accept
    + (cq.map Completion.rearms).sum + c.rearms = 1
  omega

theorem Accepting.dispatch {replies : List Bytes} {c : Completion} (h : w.Accepting c.rearms)
    (htime : c.tag = .accept → c.res ≠ -etime) (hok : w.dispatch replies c = .ok w') :
    w'.Accepting 0 := by
  have hsame := SameAccept.resumed (resumed_of_dispatch hok).2 htime
  have harmed := h.armed
  refine ⟨hsame.accepting.trans h.accepting, ?_, fun c' hc' => h.noTimeout c' (hsame.cq ▸ hc')⟩
  rw [Worker.armed] at harmed ⊢
  rw [hsame.kernel, hsame.cq, hsame.count]
  omega

/-- A completion the kernel posts for a request of another coroutine. -/
theorem Accepting.post (h : w.Accepting 0) {j : ℕ} {f : InFlight} {c : Completion}
    (hj : w.kernel[j]? = some f) (hrearms : c.rearms = if f.request = .accept then 1 else 0)
    (htime : c.tag = .accept → c.res ≠ -etime) : (w.post j c).Accepting 0 := by
  obtain ⟨hlt, rfl⟩ := List.getElem?_eq_some_iff.mp hj
  have hcount := ((List.getElem_cons_eraseIdx_perm hlt).map InFlight.request).count_eq .accept
  rw [List.map_cons, List.count_cons] at hcount
  simp only [beq_iff_eq] at hcount
  have harmed := h.armed
  refine ⟨h.accepting, ?_, fun c' hc' => ?_⟩
  · rw [Worker.armed] at harmed ⊢
    simp only [Worker.post, List.map_append, List.sum_append, List.map_singleton,
      List.sum_singleton]
    omega
  · rcases List.mem_append.mp hc' with hc' | hc'
    · exact h.noTimeout c' hc'
    · rw [List.mem_singleton.mp hc']
      exact htime

theorem Accepting.step {a : WorkerAction} (h : w.Accepting 0) (hst : w.step a = some w')
    (ha : NoAcceptTimeout a) : w'.Accepting 0 := by
  obtain ⟨-, hstepped⟩ := stepped_of_step hst
  cases hstepped with
  | submit hloop =>
    refine ⟨h.accepting, ?_, h.noTimeout⟩
    have hsq : (w.sq.map w.resolve).map InFlight.request = w.sq := by
      rw [List.map_map]
      exact List.map_id _
    have harmed := h.armed
    rw [Worker.armed] at harmed ⊢
    simp only [List.count_nil, List.map_append, List.count_append, hsq]
    omega
  | collect => exact ⟨h.accepting, h.armed, h.noTimeout⟩
  | @dispatch replies left c cq t hloop hcq hok =>
    have htime := h.noTimeout c (hcq ▸ List.mem_cons_self)
    exact (h.cqeSeen hcq left).dispatch htime hok
  | fault => exact ⟨h.accepting, h.armed, h.noTimeout⟩
  | @completeAccept j res more target hj hroom hfds =>
    cases more with
    | false =>
      have hpost := h.post (c := .accept res false) hj rfl fun _ => ha
      exact ⟨hpost.accepting, hpost.armed, hpost.noTimeout⟩
    | true =>
      refine ⟨h.accepting, ?_, fun c hc => ?_⟩
      · have harmed := h.armed
        rw [Worker.armed] at harmed ⊢
        simp only [Worker.completeAccept, if_true, List.map_append, List.sum_append,
          List.map_singleton, List.sum_singleton, Completion.rearms]
        exact harmed
      · rcases List.mem_append.mp hc with hc | hc
        · exact h.noTimeout c hc
        · rw [List.mem_singleton.mp hc]
          exact fun _ => ha
  | completeRecv hj hroom hanswer => exact h.post hj rfl fun htag => by cases htag
  | @completeSend j k offset length res fd bytes target hj hroom hanswer =>
    have hsent : (w.transmit k target bytes).Accepting 0 := ⟨h.accepting, h.armed, h.noTimeout⟩
    exact hsent.post hj rfl fun htag => by cases htag

/-! ## Faults -/

/-- A computation that does not end in a coroutine that is gone. -/
def NeverDead {α : Type} (result : Except Fault α) : Prop := result ≠ .error .deadCoroutine

theorem NeverDead.bind {α β : Type} {first : Except Fault α} {next : α → Except Fault β}
    (h : NeverDead first) (hnext : ∀ a, NeverDead (next a)) : NeverDead (first >>= next) := by
  cases first with
  | error fault => exact fun heq => h (congrArg _ (Except.error.inj heq))
  | ok a => exact hnext a

theorem neverDead_prepare (w : Worker) (request : Request) : NeverDead (w.prepare request) := by
  rw [prepare]
  split <;> rintro ⟨⟩

theorem neverDead_send (w : Worker) (conn : ℕ) (message : Bytes) :
    NeverDead (w.send conn message) := by
  rw [send]
  split
  · exact neverDead_prepare _ _
  · rintro ⟨⟩

theorem neverDead_serve (w : Worker) (conn : ℕ) (replies : List Bytes) :
    NeverDead (w.serve conn replies) := by
  induction replies generalizing w with
  | nil => rintro ⟨⟩
  | cons message replies ih => exact (neverDead_send w conn message).bind fun w' => ih w'

theorem neverDead_resume (w : Worker) (replies : List Bytes) (c : Completion) :
    NeverDead (w.resume replies c) := by
  cases c with
  | accept res more =>
    refine NeverDead.bind ?_ fun w' => ?_
    · cases more
      · exact neverDead_prepare _ _
      · rintro ⟨⟩
    · split
      · rintro ⟨⟩
      · exact neverDead_prepare _ _
  | recv conn res packet =>
    rw [resume, handleClient]
    split_ifs
    · rintro ⟨⟩
    · rintro ⟨⟩
    · split
      · next fault hparse =>
        rw [eq_outOfRange_of_parsePacket hparse]
        rintro ⟨⟩
      · exact neverDead_prepare _ _
      · exact (neverDead_serve _ _ _).bind fun w' => neverDead_prepare _ _
  | send k res =>
    rw [resume, resumeSend]
    split
    · exact neverDead_prepare _ _
    · rintro ⟨⟩

/-- **A completion for a coroutine that is alive resumes no other.** -/
theorem neverDead_dispatch {replies : List Bytes} {c : Completion} (halive : w.alive c.tag = true) :
    NeverDead (w.dispatch replies c) := by
  rw [dispatch, if_neg (by simp [halive])]
  split
  · rintro ⟨⟩
  · exact neverDead_resume _ _ _

/-! ## Whole runs -/

/-- What `OneRequestEach` needs from one step to the next. -/
structure Waiting (w : Worker) : Prop where
  awaited : w.Awaited none
  accepting : w.Accepting 0
  reached : w.fault ≠ some .deadCoroutine

theorem Waiting.alive_of_mem (h : w.Waiting) {tag : Tag} (hmem : tag ∈ w.outstanding) :
    w.alive tag = true := by
  rcases eq_or_ne tag .accept with rfl | hne
  · exact h.accepting.accepting
  · exact (h.awaited.alive_of_mem hne hmem).1

theorem Waiting.oneRequestEach (h : w.Waiting) : w.OneRequestEach where
  named _ := h.alive_of_mem
  once tag hne halive := h.awaited.once tag hne halive nofun
  accepting := h.accepting.accepting
  armed := h.accepting.armed
  reached := h.reached

theorem Waiting.step {a : WorkerAction} (h : w.Waiting) (hst : w.step a = some w')
    (ha : NoAcceptTimeout a) : w'.Waiting := by
  refine ⟨h.awaited.step hst, h.accepting.step hst ha, ?_⟩
  obtain ⟨hfault, hstepped⟩ := stepped_of_step hst
  cases hstepped with
  | submit | collect | completeAccept | completeRecv | completeSend =>
    exact fun heq => nomatch hfault.symm.trans heq
  | dispatch hloop hcq hok =>
    rw [(SameKernel.dispatch hok).fault]
    exact fun heq => nomatch hfault.symm.trans heq
  | @fault replies left c cq fault hloop hcq herr =>
    have hmem : c.tag ∈ w.outstanding := by
      rw [outstanding, hcq]
      exact List.mem_append_right _ List.mem_cons_self
    have halive : (w.cqeSeen cq left).alive c.tag = true := h.alive_of_mem hmem
    exact fun heq => neverDead_dispatch halive (herr.trans (congrArg _ (Option.some.inj heq)))

theorem Waiting.rearms {a : WorkerAction} (h : w.Waiting) (hst : w.step a = some w') :
    Rearms ⟨w, a, w'⟩ := by
  intro replies ha hnofault c hc
  obtain rfl : a = .dispatch replies := ha
  change w'.fault = none at hnofault
  change c ∈ w.cq.head? at hc
  obtain ⟨hfault, hstepped⟩ := stepped_of_step hst
  cases hstepped with
  | @dispatch _ left c' cq _ hloop hcq hok =>
    rw [hcq] at hc
    obtain rfl := Option.some.inj hc
    have htime := h.accepting.noTimeout c' (hcq ▸ List.mem_cons_self)
    exact (SameAccept.resumed (resumed_of_dispatch hok).2 htime).count
  | fault => cases hnofault

end Worker

theorem waiting_init : Worker.Waiting workerSystem.init :=
  ⟨awaited_init, ⟨rfl, rfl, nofun⟩, nofun⟩

/-- **In every state of a run each suspended coroutine has one request outstanding**, and each
request and each completion the one coroutine it resumes, in whatever order the kernel completes
them, as long as it answers no accept with `-ETIME`; and the accept is armed again exactly when a
completion was its last. -/
theorem oneRequestEach_of_visited {run : List WorkerAction}
    (hrun : ∀ m ∈ workerSystem.moves run, Worker.NoAcceptTimeout m.act) :
    (∀ w ∈ workerSystem.visited run, w.OneRequestEach) ∧
      ∀ m ∈ workerSystem.moves run, Worker.Rearms m := by
  have hkeep : ∀ w a w', w.Waiting → workerSystem.step w a = some w' →
      Worker.NoAcceptTimeout a → w'.Waiting := fun _ _ _ h hst ha => h.step hst ha
  refine ⟨fun w hw => ?_, fun m hm => ?_⟩
  · exact (System.forall_visited_of_moves (C := fun _ a => Worker.NoAcceptTimeout a)
      Worker.Waiting waiting_init hkeep hrun w hw).oneRequestEach
  · obtain ⟨hsrc, hst⟩ := System.forall_moves_of_moves (C := fun _ a => Worker.NoAcceptTimeout a)
      Worker.Waiting waiting_init hkeep hrun m hm
    exact hsrc.rearms hst

/-- Two clients connect, the second with the last completion of the accept. -/
def twoClients : List WorkerAction :=
  [.submit, .completeAccept 0 7 true, .completeAccept 0 8 false, .collect, .dispatch [],
    .dispatch []]

theorem oneRequestEach_twoClients :
    (∀ w ∈ workerSystem.visited twoClients, w.OneRequestEach) ∧
      ∀ m ∈ workerSystem.moves twoClients, Worker.Rearms m := by
  have hrun : ∀ a ∈ twoClients, Worker.NoAcceptTimeout a := by
    simp [twoClients, Worker.NoAcceptTimeout, etime]
  exact oneRequestEach_of_visited fun m hm =>
    hrun m.act (workerSystem.act_mem_of_mem_movesFrom hm)

end YServer
