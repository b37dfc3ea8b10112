import YServer.BaseNet.Responses
import Mathlib.Data.Prod.Lex

/-!
# BaseNet/WorkerRest — what the worker comes to when nobody asks for anything

With no new connection and no new packet the worker goes on with what it has: it dispatches the
completions there are, and its send coroutines go round until their messages are sent.

    batch ─ dispatch ▸ batch ▸ … ▸ batch 0 ─ submit ▸ waiting ─ collect ▸ batch
                │                                        ▴
                └──▸ sends ──▸ kernel ─── completeSend ──┘

A send that is answered with zero bytes asks again for the same, so this ends where no answer is
zero; and then every response has been put on the wire, or refused (`rests_of_run`).
-/

namespace YServer

open Machinery

/-- What goes on by itself: the worker's own steps, and answers to sends other than zero. -/
@[simp] def WorkerAction.Own : WorkerAction → Prop
  | .completeAccept _ _ _ | .completeRecv _ _ _ => False
  | .completeSend _ res _ => res ≠ 0
  | _ => True

/-- The steps of the loop for a completion queue of a length: a completion of the batch costs its
dispatch, one behind it a turn too. -/
def LoopPoint.cost (length : ℕ) : LoopPoint → ℕ
  | .waiting => 3 * length
  | .batch left => 1 + left + 3 * (length - left)

theorem LoopPoint.cost_succ_le (point : LoopPoint) (length : ℕ) :
    point.cost (length + 1) ≤ point.cost length + 3 := by
  cases point <;> simp only [cost] <;> omega

namespace Worker

/-- The kernel has answered a request of the `k`-th send with an error. -/
def Refused (moves : List (Move Worker WorkerAction)) (k : ℕ) : Prop :=
  ∃ m ∈ moves, ∃ j res bytes, m.act = .completeSend j res bytes ∧ res < 0 ∧
    m.src.kernel[j]?.map (fun f => f.request.tag) = some (.send k)

/-- The kernel has put as much on the wire as the message is long, or refused a part of it. -/
def Settled (moves : List (Move Worker WorkerAction)) (w : Worker) (k : ℕ) : Prop :=
  (w.sends k).message.length ≤ (w.sends k).put ∨ Refused moves k

/-- **The worker waits for others only.** -/
structure AtRest (moves : List (Move Worker WorkerAction)) (w : Worker) : Prop where
  waiting : w.loop = .waiting
  sq : w.sq = []
  cq : w.cq = []
  /-- A handler in its loop has a recv in the kernel. -/
  recvs : ∀ i, (w.kernel.map fun f => f.request.tag).count (.recv i)
    = if (w.conns i).inLoop then 1 else 0
  ended : ∀ k, (w.sends k).suspended = false
  settled : ∀ k, w.Settled moves k

/-! ## Where the event loop stands -/

/-- Nothing stays behind in the submission queue, and a batch is no longer than the queue. -/
structure Turned (w : Worker) : Prop where
  submitted : w.loop = .waiting → w.sq = []
  batched : ∀ left, w.loop = .batch left → left ≤ w.cq.length

variable {w w' : Worker} {running : Option Tag}

/-- A completion is posted behind the batch. -/
theorem Turned.post (h : w.Turned) {c : Completion} (hsq : w'.sq = w.sq) (hloop : w'.loop = w.loop)
    (hcq : w'.cq = w.cq ++ [c]) : w'.Turned where
  submitted hwaiting := hsq.trans (h.submitted (hloop.symm.trans hwaiting))
  batched left hbatch := by
    rw [hcq, List.length_append]
    exact (h.batched left (hloop.symm.trans hbatch)).trans (Nat.le_add_right _ _)

theorem Turned.step {a : WorkerAction} (h : w.Turned) (hst : w.step a = some w') : w'.Turned := by
  obtain ⟨-, hstepped⟩ := stepped_of_step hst
  cases hstepped with
  | submit hloop => exact ⟨fun _ => rfl, fun left hbatch => by cases hbatch⟩
  | collect hloop hcq =>
    refine ⟨fun hwaiting => (by cases hwaiting), fun left hbatch => ?_⟩
    exact (LoopPoint.batch.inj hbatch).ge
  | @dispatch replies left c cq t hloop hcq hok =>
    have hsame := SameKernel.dispatch hok
    have hbatched := h.batched _ hloop
    rw [hcq, List.length_cons] at hbatched
    refine ⟨fun hwaiting => ?_, fun left' hbatch => ?_⟩
    · cases hsame.loop.symm.trans hwaiting
    · obtain rfl := LoopPoint.batch.inj (hsame.loop.symm.trans hbatch)
      rw [hsame.cq]
      exact Nat.le_of_succ_le_succ hbatched
  | fault => exact ⟨h.submitted, h.batched⟩
  | completeAccept => exact h.post rfl rfl rfl
  | completeRecv => exact h.post rfl rfl rfl
  | completeSend => exact h.post rfl rfl rfl

/-! ## How much of a response is on the wire -/

/-- The coroutines whose requests have not been answered. -/
def unanswered (w : Worker) : List Tag :=
  w.sq.map Request.tag ++ w.kernel.map fun f => f.request.tag

/-- **Each send knows how much the kernel has put on the wire for it**, up to an answer it has not
seen, and ends when that is enough. -/
structure Tallied (moves : List (Move Worker WorkerAction)) (w : Worker) : Prop where
  asked : ∀ k, .send k ∈ w.unanswered → (w.sends k).put = (w.sends k).bytesSent
  answered : ∀ k res, .send k res ∈ w.cq →
    ((w.sends k).put : ℤ) = (w.sends k).bytesSent + max res 0 ∧ (res < 0 → Refused moves k)
  ended : ∀ k, (w.sends k).suspended = false → w.Settled moves k

variable {moves : List (Move Worker WorkerAction)}

theorem Refused.append {k : ℕ} (h : Refused moves k) (more : List (Move Worker WorkerAction)) :
    Refused (moves ++ more) k := by
  obtain ⟨m, hm, hrefused⟩ := h
  exact ⟨m, List.mem_append_left _ hm, hrefused⟩

theorem Tallied.append (h : w.Tallied moves) (more : List (Move Worker WorkerAction)) :
    w.Tallied (moves ++ more) where
  asked := h.asked
  answered k res hmem := (h.answered k res hmem).imp_right fun hneg hres => (hneg hres).append more
  ended k hend := (h.ended k hend).imp_right fun hrefused => hrefused.append more

/-- The sends are where they were, and nothing was posted for them. -/
theorem Tallied.congr (h : w.Tallied moves)
    (hasked : ∀ k, .send k ∈ w'.unanswered → .send k ∈ w.unanswered)
    (hcq : ∀ k res, .send k res ∈ w'.cq → .send k res ∈ w.cq) (hsends : w'.sends = w.sends) :
    w'.Tallied moves where
  asked k hmem := by
    rw [hsends]
    exact h.asked k (hasked k hmem)
  answered k res hmem := by
    rw [hsends]
    exact h.answered k res (hcq k res hmem)
  ended k := by
    rw [Settled, hsends]
    exact h.ended k

theorem mem_unanswered_concat {request : Request} {tag : Tag} :
    tag ∈ { w with sq := w.sq ++ [request] }.unanswered
      ↔ tag ∈ w.unanswered ∨ tag = request.tag := by
  simp only [unanswered, List.map_append, List.map_singleton, List.mem_append, List.mem_singleton]
  tauto

/-- A new request goes on behind what is on the wire. -/
theorem Tallied.ask (h : w.Tallied moves) {request : Request}
    (hput : ∀ k, .send k = request.tag → (w.sends k).put = (w.sends k).bytesSent) :
    Tallied moves { w with sq := w.sq ++ [request] } where
  asked k hmem := (mem_unanswered_concat.mp hmem).elim (h.asked k) (hput k)
  answered := h.answered
  ended := h.ended

theorem Tallied.prepare {request : Request} (h : w.Tallied moves)
    (hok : w.prepare request = .ok w')
    (hput : ∀ k, .send k = request.tag → (w.sends k).put = (w.sends k).bytesSent) :
    w'.Tallied moves := by
  rw [prepare_eq_ok hok]
  exact h.ask hput

/-- **A send with nothing outstanding may change**, as long as it does not end too early. -/
theorem Tallied.setSend (h : w.Tallied moves) (k : ℕ) (task : SendTask)
    (hgone : .send k ∉ w.outstanding)
    (hend : task.suspended = false → task.message.length ≤ task.put ∨ Refused moves k) :
    (w.setSend k task).Tallied moves := by
  have hother : ∀ j, j ≠ k → (w.setSend k task).sends j = w.sends j := fun j hj =>
    Function.update_of_ne hj _ _
  have hself : (w.setSend k task).sends k = task := Function.update_self _ _ _
  refine ⟨fun j hmem => ?_, fun j res hmem => ?_, fun j hsuspended => ?_⟩
  · have hne : j ≠ k := by
      rintro rfl
      exact hgone (List.mem_append_left _ hmem)
    rw [hother j hne]
    exact h.asked j hmem
  · have hne : j ≠ k := by
      rintro rfl
      exact hgone (tag_mem_of_cq hmem)
    rw [hother j hne]
    exact h.answered j res hmem
  · rcases eq_or_ne j k with rfl | hne
    · rw [hself] at hsuspended
      rw [Settled, hself]
      exact hend hsuspended
    · rw [hother j hne] at hsuspended
      rw [Settled, hother j hne]
      exact h.ended j hsuspended

theorem Tallied.startSend (h : w.Tallied moves) (ha : w.Awaited running) {task : SendTask}
    (hend : task.suspended = false → task.message.length ≤ task.put ∨ Refused moves w.sendCount) :
    (w.startSend task).Tallied moves := by
  have hgone : .send w.sendCount ∉ w.outstanding := fun hmem => (ha.lt_sendCount hmem).false
  have hset := h.setSend w.sendCount task hgone hend
  exact ⟨hset.asked, hset.answered, hset.ended⟩

theorem Tallied.send {conn : ℕ} {message : Bytes} (h : w.Tallied moves) (ha : w.Awaited running)
    (hok : w.send conn message = .ok w') : w'.Tallied moves := by
  rcases send_eq_ok hok with ⟨-, rfl⟩ | ⟨rfl, rfl⟩
  · have hself : (w.startSend ⟨conn, message, 0, true, false, 0⟩).sends w.sendCount
        = ⟨conn, message, 0, true, false, 0⟩ := Function.update_self _ _ _
    refine (h.startSend ha fun hfalse => ?_).ask fun k htag => ?_
    · cases hfalse
    · obtain rfl := Tag.send.inj htag
      rw [hself]
  · exact h.startSend ha fun _ => Or.inl (Nat.le_refl _)

theorem Tallied.serve {conn : ℕ} {replies : List Bytes} (h : w.Tallied moves)
    (ha : w.Awaited running) (hrun : ∀ k, running ≠ some (.send k))
    (hok : w.serve conn replies = .ok w') : w'.Tallied moves := by
  induction replies generalizing w with
  | nil => exact Except.ok.inj hok ▸ h
  | cons message replies ih =>
    obtain ⟨w₁, hsend, hrest⟩ := bind_eq_ok hok
    exact ih (h.send ha hsend) (ha.send hrun hsend) hrest

/-- **A dispatched completion is reckoned with.** -/
theorem Tallied.dispatch {replies : List Bytes} {c : Completion} {cq : List Completion}
    (h : w.Tallied moves) (ha : w.Awaited none) (hcq : w.cq = c :: cq) {left : ℕ}
    (hok : (w.cqeSeen cq left).dispatch replies c = .ok w') : w'.Tallied moves := by
  have hseen : (w.cqeSeen cq left).Tallied moves :=
    h.congr (fun _ => id) (fun k res hmem => hcq ▸ List.mem_cons_of_mem _ hmem) rfl
  have haseen := ha.cqeSeen hcq left
  obtain ⟨halive, hresumed⟩ := resumed_of_dispatch hok
  have hgone : ∀ k, c.tag = .send k → .send k ∉ (w.cqeSeen cq left).outstanding :=
    fun k htag hmem => haseen.ne_of_running (by simp) (congrArg some htag) hmem rfl
  have harmed : ∀ {more : Bool} {w₁ : Worker}, Armed (w.cqeSeen cq left) more w₁ →
      w₁.Tallied moves := by
    rintro more w₁ (_ | hok)
    · exact hseen
    · exact hseen.prepare hok fun k htag => by cases htag
  have hanswered : ∀ k res, c = .send k res →
      ((w.sends k).put : ℤ) = (w.sends k).bytesSent + max res 0 ∧ (res < 0 → Refused moves k) := by
    rintro k res rfl
    exact h.answered k res (hcq ▸ List.mem_cons_self)
  cases hresumed with
  | acceptDestroyed => exact hseen.congr (fun _ => id) (fun _ _ => id) rfl
  | acceptFailed harm => exact harmed harm
  | connected harm hres hrecv =>
    refine Tallied.prepare ?_ hrecv fun k htag => by cases htag
    exact (harmed harm).congr (fun _ => id) (fun _ _ => id) rfl
  | left hres => exact hseen.congr (fun _ => id) (fun _ _ => id) rfl
  | kept hpos hparse hrecv =>
    refine Tallied.prepare ?_ hrecv fun k htag => by cases htag
    exact hseen.congr (fun _ => id) (fun _ _ => id) rfl
  | @served conn res packet raw request w₁ w' hpos hparse hserve hrecv =>
    refine Tallied.prepare ?_ hrecv fun k htag => by cases htag
    refine Tallied.serve ?_ (haseen.setRaw conn raw) (fun k hk => by cases hk) hserve
    exact hseen.congr (fun _ => id) (fun _ _ => id) rfl
  | @sendDestroyed k =>
    exact hseen.setSend k _ (hgone k rfl) fun _ => Or.inr ((hanswered k _ rfl).2 (by decide))
  | @sendEnded k res value htime hresumed =>
    refine hseen.setSend k _ (hgone k rfl) fun _ => ?_
    obtain ⟨hput, hrefused⟩ := hanswered k res rfl
    rcases lt_or_ge res 0 with hneg | hpos
    · exact Or.inr (hrefused hneg)
    · have hle := sendResumed_eq_returned hresumed hpos
      change (w.sends k).message.length ≤ (w.sends k).bytesSent + res.toNat at hle
      refine Or.inl (hle.trans ?_)
      change _ ≤ (w.sends k).put
      omega
  | @sendAgain k offset res w' htime hresumed hok =>
    obtain ⟨hput, -⟩ := hanswered k res rfl
    obtain ⟨hpos, hoffset, -⟩ := sendResumed_eq_awaiting hresumed
    refine Tallied.prepare (hseen.setSend k _ (hgone k rfl) fun hfalse => ?_) hok fun j htag => ?_
    · exact absurd (halive.symm.trans hfalse) (by decide)
    · obtain rfl := Tag.send.inj htag
      have hput' : (w.sends j).put = offset := by
        change offset = (w.sends j).bytesSent + res.toNat at hoffset
        omega
      simp only [Worker.setSend, Function.update_self]
      exact hput'

/-- The kernel answers requests, and makes none. -/
theorem unanswered_subset (hsq : w'.sq = w.sq) (hkernel : w'.kernel ⊆ w.kernel) :
    w'.unanswered ⊆ w.unanswered := fun tag hmem => by
  rw [unanswered, hsq] at hmem
  exact List.mem_append.mpr ((List.mem_append.mp hmem).imp_right (List.map_subset _ hkernel ·))

/-- The kernel posts what is for no send. -/
theorem Tallied.post (h : w.Tallied moves) {c : Completion} (hsq : w'.sq = w.sq)
    (hkernel : w'.kernel ⊆ w.kernel) (hcq : w'.cq = w.cq ++ [c]) (hc : ∀ k, c.tag ≠ .send k)
    (hsends : w'.sends = w.sends) : w'.Tallied moves := by
  refine h.congr (fun k hmem => unanswered_subset hsq hkernel hmem) (fun k res hmem => ?_) hsends
  rw [hcq] at hmem
  exact (List.mem_append.mp hmem).resolve_right fun hmem =>
    hc k (congrArg Completion.tag (List.mem_singleton.mp hmem)).symm

/-- **The kernel answers a send**, and the answer is known where it refuses. -/
theorem Tallied.completeSend (h : w.Tallied moves) (ha : w.Awaited none) {j k : ℕ} {res : ℤ}
    {bytes : Bytes} {target target' : Option ℕ} {request : Request}
    (ha' : ((w.transmit k target bytes).post j (.send k res)).Awaited none)
    (hj : w.kernel[j]? = some ⟨request, target'⟩) (htag : request.tag = .send k)
    (hlength : (bytes.length : ℤ) = max res 0) (hrefused : res < 0 → Refused moves k) :
    ((w.transmit k target bytes).post j (.send k res)).Tallied moves := by
  have hkernel : .send k ∈ w.kernel.map fun f => f.request.tag :=
    List.mem_map.mpr ⟨_, List.mem_of_getElem? hj, htag⟩
  have hasked : .send k ∈ w.unanswered := List.mem_append_right _ hkernel
  have halive : (w.sends k).suspended = true :=
    (ha.alive_of_mem (by simp) (List.mem_append_left _ hasked)).1
  have hother : ∀ i, i ≠ k →
      ((w.transmit k target bytes).post j (.send k res)).sends i = w.sends i := fun i hi =>
    Function.update_of_ne hi _ _
  have hself : ((w.transmit k target bytes).post j (.send k res)).sends k
      = { w.sends k with put := (w.sends k).put + bytes.length } := Function.update_self _ _ _
  refine ⟨fun i hmem => ?_, fun i res' hmem => ?_, fun i hend => ?_⟩
  · have hne : i ≠ k := by
      rintro rfl
      obtain ⟨hsq, hgone⟩ := ha'.completed (c := .send i res)
        (List.mem_append_right _ (List.mem_singleton_self _)) (by simp [Completion.tag])
      exact (List.mem_append.mp hmem).elim hsq hgone
    rw [hother i hne]
    exact h.asked i (unanswered_subset (by rfl) List.eraseIdx_subset hmem)
  · rcases List.mem_append.mp hmem with hmem | hmem
    · have hne : i ≠ k := by
        rintro rfl
        exact (ha.completed hmem (by simp [Completion.tag])).2 hkernel
      rw [hother i hne]
      exact h.answered i res' hmem
    · obtain ⟨rfl, rfl⟩ := Completion.send.inj (List.mem_singleton.mp hmem)
      have hput := h.asked i hasked
      rw [hself]
      refine ⟨?_, hrefused⟩
      change (((w.sends i).put + bytes.length : ℕ) : ℤ) = (w.sends i).bytesSent + max res' 0
      omega
  · have hne : i ≠ k := by
      rintro rfl
      rw [hself] at hend
      exact absurd (halive.symm.trans hend) (by decide)
    rw [hother i hne] at hend
    rw [Settled, hother i hne]
    exact h.ended i hend

theorem Tallied.step {a : WorkerAction} (h : w.Tallied moves) (ha : w.Awaited none)
    (hst : w.step a = some w') : w'.Tallied (moves ++ [⟨w, a, w'⟩]) := by
  have h' := h.append [⟨w, a, w'⟩]
  have ha' := ha.step hst
  obtain ⟨-, hstepped⟩ := stepped_of_step hst
  cases hstepped with
  | submit hloop =>
    refine h'.congr (fun k hmem => ?_) (fun _ _ => id) rfl
    have hsq : (w.sq.map w.resolve).map (fun f => f.request.tag) = w.sq.map Request.tag :=
      List.map_map
    rw [unanswered, List.map_append, hsq] at hmem
    rw [unanswered, List.mem_append, or_comm]
    exact List.mem_append.mp hmem
  | collect => exact h'.congr (fun _ => id) (fun _ _ => id) rfl
  | dispatch hloop hcq hok => exact h'.dispatch ha hcq hok
  | fault => exact h'.congr (fun _ => id) (fun _ _ => id) rfl
  | @completeAccept j res more =>
    refine h'.post rfl (fun f hf => ?_) rfl (fun k hk => by cases hk) rfl
    cases more with
    | true => exact hf
    | false => exact List.mem_of_mem_eraseIdx hf
  | completeRecv =>
    exact h'.post rfl List.eraseIdx_subset rfl (fun k hk => by cases hk) rfl
  | @completeSend j k offset length res fd bytes target hj hroom hanswer =>
    refine h'.completeSend ha ha' hj rfl hanswer.1 fun hneg => ?_
    exact ⟨_, List.mem_append_right _ (List.mem_singleton_self _), j, res, bytes, rfl, hneg, by
      simp [hj, Request.tag]⟩

/-! ## What a step uses up -/

/-- What the sends have still to ask for. -/
def unsent (w : Worker) : ℕ :=
  ∑ k ∈ Finset.range w.sendCount, ((w.sends k).message.length - (w.sends k).bytesSent)

/-- What is used up once the other completions are gone. -/
def sendCost (w : Worker) : ℕ :=
  4 * (w.unsent + w.sq.length + w.kernel.length) + w.loop.cost w.cq.length
    + if w.fault.isSome then 0 else 1

/-- A completion that is no answer to a send, or a zero: it may start anything. -/
def Opens : Completion → Bool
  | .send _ res => res = 0
  | _ => true

/-- No step makes more completions that start something. -/
def cost (w : Worker) : ℕ ×ₗ ℕ :=
  toLex (w.cq.countP Opens, w.sendCost)

theorem unsent_setSend {k : ℕ} (hk : k < w.sendCount) (task : SendTask) :
    (w.setSend k task).unsent + ((w.sends k).message.length - (w.sends k).bytesSent)
      = w.unsent + (task.message.length - task.bytesSent) :=
  sum_update_add (Finset.mem_range.mpr hk)
    (fun task : SendTask => task.message.length - task.bytesSent) w.sends task

/-- **An answer to a send that is not zero gets it on.** -/
theorem unsent_of_resumed {replies : List Bytes} {k : ℕ} {res : ℤ} (hk : k < w.sendCount)
    (hres : res ≠ 0) (h : w.Resumed replies (.send k res) w') :
    w'.unsent + w'.sq.length ≤ w.unsent + w.sq.length := by
  cases h with
  | sendDestroyed =>
    exact Nat.add_le_add_right (Nat.add_right_cancel
      (unsent_setSend hk { w.sends k with suspended := false })).le _
  | sendEnded htime hresumed =>
    exact Nat.add_le_add_right (Nat.add_right_cancel
      (unsent_setSend hk { w.sends k with released := true, suspended := false })).le _
  | @sendAgain k offset res w' htime hresumed hok =>
    obtain ⟨hpos, hoffset, hlt⟩ := sendResumed_eq_awaiting hresumed
    have hunsent : (w.setSend k { w.sends k with released := true, bytesSent := offset }).unsent
        + ((w.sends k).message.length - (w.sends k).bytesSent)
          = w.unsent + ((w.sends k).message.length - offset) := unsent_setSend hk _
    rw [prepare_eq_ok hok, List.length_append, List.length_singleton]
    change (w.setSend k { w.sends k with released := true, bytesSent := offset }).unsent
      + (w.sq.length + 1) ≤ _
    omega

/-- **Every step that goes on by itself uses something up.** -/
theorem cost_lt_of_own {a : WorkerAction} (h : w.Awaited none) (ha : a.Own)
    (hst : w.step a = some w') : w'.cost < w.cost := by
  obtain ⟨hfault, hstepped⟩ := stepped_of_step hst
  rw [cost, cost, Prod.Lex.toLex_lt_toLex]
  cases hstepped with
  | submit hloop =>
    refine Or.inr ⟨rfl, ?_⟩
    simp only [sendCost, unsent, LoopPoint.cost, hloop, List.length_append, List.length_map,
      List.length_nil]
    omega
  | collect hloop hcq =>
    refine Or.inr ⟨rfl, ?_⟩
    have hpos := List.length_pos_of_ne_nil hcq
    simp only [sendCost, unsent, LoopPoint.cost, hloop]
    omega
  | @dispatch replies left c cq t hloop hcq hok =>
    have hsame := SameKernel.dispatch hok
    have hcq' : w'.cq = cq := hsame.cq
    rw [hcq', hcq, List.countP_cons]
    by_cases hopens : Opens c
    · exact Or.inl (by rw [if_pos hopens]; exact Nat.lt_succ_self _)
    · obtain ⟨k, res, rfl, hres⟩ : ∃ k res, c = .send k res ∧ res ≠ 0 := by
        cases c <;> simp_all [Opens]
      have hmem : Tag.send k ∈ w.outstanding :=
        tag_mem_of_cq (c := .send k res) (hcq ▸ List.mem_cons_self)
      have hunsent : w'.unsent + w'.sq.length ≤ w.unsent + w.sq.length :=
        unsent_of_resumed (w := w.cqeSeen cq left) (h.lt_sendCount hmem) hres
          (resumed_of_dispatch hok).2
      refine Or.inr ⟨by rw [if_neg hopens, Nat.add_zero], ?_⟩
      have hfault' : w'.fault = none := hsame.fault.trans hfault
      rw [sendCost, sendCost, hsame.kernel, hsame.loop, hfault', hfault, hcq', hloop, hcq]
      simp only [cqeSeen, LoopPoint.cost, List.length_cons]
      omega
  | @fault replies left c cq fault hloop hcq herr =>
    refine Or.inr ⟨rfl, ?_⟩
    simp [sendCost, unsent, hfault]
  | completeAccept => exact ha.elim
  | completeRecv => exact ha.elim
  | @completeSend j k offset length res fd bytes target hj hroom hanswer =>
    have hres : res ≠ 0 := ha
    have hmem : Tag.send k ∈ w.outstanding := tag_mem_of_kernel (List.mem_of_getElem? hj)
    have hunsent : ((w.transmit k target bytes).post j (.send k res)).unsent = w.unsent :=
      Nat.add_right_cancel (unsent_setSend (h.lt_sendCount hmem)
        { w.sends k with put := (w.sends k).put + bytes.length })
    have hkernel : (w.kernel.eraseIdx j).length + 1 = w.kernel.length :=
      List.length_eraseIdx_add_one (List.getElem?_eq_some_iff.mp hj).1
    refine Or.inr ⟨?_, ?_⟩
    · change (w.cq ++ [Completion.send k res]).countP Opens = _
      rw [List.countP_append, List.countP_singleton, if_neg (by simpa [Opens] using hres),
        Nat.add_zero]
    · have hloop := w.loop.cost_succ_le w.cq.length
      rw [sendCost, sendCost, hunsent]
      change 4 * (w.unsent + w.sq.length + (w.kernel.eraseIdx j).length)
        + w.loop.cost (w.cq ++ [Completion.send k res]).length
          + (if w.fault.isSome then 0 else 1) < _
      rw [List.length_append, List.length_singleton]
      omega

/-! ## Where nothing goes on by itself -/

/-- Nothing can be done, be it to answer a request or to refuse to send. -/
structure Stuck (w : Worker) : Prop where
  submit : w.step .submit = none
  collect : w.step .collect = none
  dispatch : ∃ replies, w.step (.dispatch replies) = none
  refuse : ∀ j, w.step (.completeSend j (-1) []) = none

namespace Stuck

variable (h : w.Stuck) (hfault : w.fault = none)

include h hfault

/-- **The event loop waits**, and has dispatched all it has found. -/
theorem waiting (hturned : w.Turned) : w.loop = .waiting ∧ w.cq = [] := by
  cases hloop : w.loop with
  | waiting =>
    refine ⟨rfl, ?_⟩
    by_contra hcq
    cases h.collect.symm.trans (step_of_stepped hfault (.collect hloop hcq))
  | batch left =>
    rcases left with _ | left
    · cases h.submit.symm.trans (step_of_stepped hfault (.submit hloop))
    · obtain ⟨replies, hnone⟩ := h.dispatch
      obtain ⟨c, cq, hcq⟩ := List.exists_cons_of_length_pos
        (Nat.lt_of_lt_of_le (Nat.succ_pos left) (hturned.batched _ hloop))
      cases hdispatch : (w.cqeSeen cq left).dispatch replies c with
      | ok t => cases hnone.symm.trans (step_dispatch_ok hfault hloop hcq hdispatch)
      | error fault => cases hnone.symm.trans (step_dispatch_error hfault hloop hcq hdispatch)

/-- **The kernel has no send**: it could still refuse it. -/
theorem send_notMem (hcq : w.cq = []) (k : ℕ) :
    .send k ∉ w.kernel.map fun f => f.request.tag := by
  intro hmem
  obtain ⟨⟨request, target⟩, hf, htag⟩ := List.mem_map.mp hmem
  cases request with
  | accept => cases htag
  | recv conn fd => cases htag
  | send k' fd offset length =>
    obtain ⟨j, hj⟩ := List.getElem?_of_mem hf
    have hanswer : SendAnswer (w.sends k') target offset length (-1) [] :=
      ⟨rfl, by omega, fun hpos => absurd hpos (by decide), fun _ => List.nil_prefix⟩
    have hroom : w.cq.length < 2 * ioUringQueueSize := by
      rw [hcq]
      decide
    cases (h.refuse j).symm.trans (step_of_stepped hfault (.completeSend hj hroom hanswer))

theorem atRest (ha : w.Awaited none) (hturned : w.Turned) (htallied : w.Tallied moves) :
    w.AtRest moves := by
  obtain ⟨hloop, hcq⟩ := h.waiting hfault hturned
  have hsq := hturned.submitted hloop
  have hcount : ∀ tag, w.outstanding.count tag
      = (w.kernel.map fun f => f.request.tag).count tag := fun tag => by
    rw [count_outstanding, hsq, hcq]
    simp
  have hended : ∀ k, (w.sends k).suspended = false := fun k => by
    by_contra halive
    have honce := ha.once (.send k) (by simp) (Bool.not_eq_false _ ▸ halive) (by simp)
    rw [hcount, List.count_eq_zero.mpr (h.send_notMem hfault hcq k)] at honce
    exact absurd honce (by decide)
  refine ⟨hloop, hsq, hcq, fun i => ?_, hended, fun k => htallied.ended k (hended k)⟩
  rw [← hcount]
  split_ifs with halive
  · exact ha.once (.recv i) (by simp) halive (by simp)
  · exact ha.nothing (.recv i) (by simp) (Or.inl (Bool.not_eq_true _ ▸ halive))

end Stuck

end Worker

/-! ## Runs -/

theorem turned_init : workerSystem.init.Turned where
  submitted hwaiting := by cases hwaiting
  batched left hbatch := (LoopPoint.batch.inj hbatch).ge

theorem tallied_init : workerSystem.init.Tallied [] where
  asked k hmem := by cases List.mem_singleton.mp hmem
  answered k res hmem := by cases hmem
  ended k _ := Or.inl (Nat.le_refl _)

theorem tallied_of_reached {s : List (Move Worker WorkerAction) × Worker}
    (h : workerSystem.Reached s) : s.2.Awaited none ∧ s.2.Turned ∧ s.2.Tallied s.1 := by
  obtain ⟨run, hrun, hmoves⟩ := h
  rw [← hmoves]
  exact System.history_of_run (C := fun _ _ => True)
    (fun moves w => w.Awaited none ∧ w.Turned ∧ w.Tallied moves)
    ⟨awaited_init, turned_init, tallied_init⟩
    (fun moves s a t h hst _ => ⟨h.1.step hst, h.2.1.step hst, h.2.2.step h.1 hst⟩) hrun
    fun _ _ => trivial

end YServer
