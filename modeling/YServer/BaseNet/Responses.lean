import YServer.BaseNet.Targets
import YServer.Machinery.Delivery

/-!
# BaseNet/Responses — in which order do a connection's responses arrive?

Every response has a send coroutine of its own, and the handler that started it goes straight back
to its recv, so several may be under way on one connection:

    request 1 ──▶ send 1 ─ prepared ─ submitted ───────────────┐
    request 2 ──▶ send 2 ───── prepared ─ submitted ─┐         │
                                        the wire:  response 2  response 1

Nothing makes the kernel, or a short write, keep their order.  Where every result finds the earlier
responses of its connection on the wire, and one for a message already deleted still finds the
message and the connection, the client reads its responses one after the other
(`inOrder_of_forall_inTurn`).
-/

namespace YServer

open Machinery

namespace Worker

/-- The send coroutines of the responses for a TCP connection, in the order of their requests. -/
def responses (w : Worker) (t : ℕ) : List ℕ :=
  (List.range w.sendCount).filter fun k => (w.conns (w.sends k).conn).peer = some t

/-- **Responses do not interleave**: what has reached a client is a prefix of the responses to its
requests, in their order. -/
def InOrder (w : Worker) : Prop :=
  ∀ t, w.wire t <+: ((w.responses t).map fun k => (w.sends k).message).flatten

/-- All earlier responses for the same connection are on the wire. -/
def HasTurn (w : Worker) (k : ℕ) : Prop :=
  ∀ i < k, (w.sends i).conn = (w.sends k).conn → (w.sends i).put = (w.sends i).message.length

/-- The kernel puts bytes on the wire for a response whose turn it is.  If the awaiter has deleted
its message, they are what is left of the message all the same, and the descriptor was still the
connection's. -/
def PutsInTurn (w : Worker) (bytes : Bytes) : InFlight → Prop
  | ⟨.send k _ _ _, target⟩ => w.HasTurn k ∧ ((w.sends k).released = true →
      target = (w.conns (w.sends k).conn).peer ∧ bytes <+: (w.sends k).message.drop (w.sends k).put)
  | _ => True

/-- The condition on one action: bytes that reach a wire are put there in turn. -/
def InTurn (w : Worker) : WorkerAction → Prop
  | .completeSend j res bytes => 0 < res → ∀ f ∈ w.kernel[j]?, w.PutsInTurn bytes f
  | _ => True

instance (w : Worker) (k : ℕ) : Decidable (w.HasTurn k) :=
  inferInstanceAs (Decidable (∀ i < k, _ → _))

instance (w : Worker) (bytes : Bytes) : (f : InFlight) → Decidable (w.PutsInTurn bytes f)
  | ⟨.send _ _ _ _, _⟩ => inferInstanceAs (Decidable (_ ∧ (_ → _ ∧ _)))
  | ⟨.accept, _⟩ | ⟨.recv _ _, _⟩ => isTrue trivial

instance (w : Worker) : (a : WorkerAction) → Decidable (w.InTurn a)
  | .completeSend _ _ _ => inferInstanceAs (Decidable (_ → ∀ f ∈ _, _))
  | .submit | .collect | .dispatch _ | .completeAccept _ _ _ | .completeRecv _ _ _ => isTrue trivial

/-- **The wires carry the responses one by one.** -/
structure Sent (w : Worker) : Prop where
  oneByOne : ∀ t, OneByOne (w.responses t) (fun k => (w.sends k).message) fun k => (w.sends k).put
  wire : ∀ t, w.wire t
    = delivered (w.responses t) (fun k => (w.sends k).message) fun k => (w.sends k).put

variable {w w' : Worker}

theorem Sent.inOrder (h : w.Sent) : w.InOrder := fun t => by
  rw [h.wire t]
  exact (h.oneByOne t).delivered_isPrefix

theorem mem_responses {t k : ℕ} :
    k ∈ w.responses t ↔ k < w.sendCount ∧ (w.conns (w.sends k).conn).peer = some t := by
  rw [responses, List.mem_filter, List.mem_range, decide_eq_true_eq]

theorem responses_sorted (w : Worker) (t : ℕ) : (w.responses t).Pairwise (· < ·) :=
  List.pairwise_lt_range.filter _

/-! ## The program puts nothing on a wire -/

/-- What is on the wires for the responses, and for whom they are, has not changed. -/
theorem Sent.congr (h : w.Sent) (hcount : w'.sendCount = w.sendCount)
    (hpeer : ∀ k < w.sendCount, (w'.conns (w'.sends k).conn).peer = (w.conns (w.sends k).conn).peer)
    (hmessage : ∀ k, (w'.sends k).message = (w.sends k).message)
    (hput : ∀ k, (w'.sends k).put = (w.sends k).put) (hwire : w'.wire = w.wire) : w'.Sent := by
  have hresponses : ∀ t, w'.responses t = w.responses t := fun t => by
    rw [responses, responses, hcount]
    refine List.filter_congr fun k hk => ?_
    rw [hpeer k (List.mem_range.mp hk)]
  refine ⟨fun t => ?_, fun t => ?_⟩
  · rw [hresponses]
    exact (h.oneByOne t).congr (fun k _ => hmessage k) fun k _ => hput k
  · rw [hwire, hresponses, h.wire t]
    exact (delivered_congr (fun k _ => hmessage k) fun k _ => hput k).symm

/-- Nothing else matters. -/
theorem Sent.of_eq (h : w.Sent) (hcount : w'.sendCount = w.sendCount) (hsends : w'.sends = w.sends)
    (hconns : w'.conns = w.conns) (hwire : w'.wire = w.wire) : w'.Sent :=
  h.congr hcount (fun _ _ => by rw [hsends, hconns]) (fun _ => by rw [hsends])
    (fun _ => by rw [hsends]) hwire

theorem Sent.prepare {request : Request} (h : w.Sent) (hok : w.prepare request = .ok w') :
    w'.Sent := by
  rw [prepare_eq_ok hok]
  exact h.of_eq rfl rfl rfl rfl

theorem Sent.setRaw (h : w.Sent) (conn : ℕ) (raw : Bytes) : (w.setRaw conn raw).Sent := by
  refine h.congr rfl (fun k _ => ?_) (fun _ => rfl) (fun _ => rfl) rfl
  exact peer_setRaw conn raw _

theorem Sent.leave (h : w.Sent) (conn : ℕ) : (w.leave conn).Sent := by
  refine h.congr rfl (fun k _ => ?_) (fun _ => rfl) (fun _ => rfl) rfl
  exact peer_leave conn _

theorem Sent.connect (h : w.Sent) (hconn : ∀ k < w.sendCount, (w.sends k).conn < w.connCount)
    (fd : ℤ) : (w.connect fd).Sent :=
  h.congr rfl (fun k hk => congrArg Connection.peer (Function.update_of_ne (hconn k hk).ne _ _))
    (fun _ => rfl) (fun _ => rfl) rfl

/-- A send coroutine's other variables are its own. -/
theorem Sent.setSend (h : w.Sent) (k : ℕ) (task : SendTask) (hconn : task.conn = (w.sends k).conn)
    (hmessage : task.message = (w.sends k).message) (hput : task.put = (w.sends k).put) :
    (w.setSend k task).Sent := by
  refine h.congr rfl (fun j _ => ?_) (fun j => ?_) (fun j => ?_) rfl <;>
    rcases eq_or_ne j k with rfl | hne <;> simp [Worker.setSend, *]

/-- **A new response comes last, and has nothing on the wire.** -/
theorem Sent.startSend (h : w.Sent) {task : SendTask} (hput : task.put = 0) :
    (w.startSend task).Sent := by
  have hself : (w.startSend task).sends w.sendCount = task := Function.update_self _ _ _
  have hother : ∀ k < w.sendCount, (w.startSend task).sends k = w.sends k := fun k hk =>
    Function.update_of_ne hk.ne _ _
  have hresponses : ∀ t, (w.startSend task).responses t
      = w.responses t ++ if (w.conns task.conn).peer = some t then [w.sendCount] else [] := by
    intro t
    have hold : ∀ k ∈ List.range w.sendCount,
        decide (((w.startSend task).conns ((w.startSend task).sends k).conn).peer = some t)
          = decide ((w.conns (w.sends k).conn).peer = some t) := fun k hk => by
      rw [hother k (List.mem_range.mp hk)]
      rfl
    change (List.range (w.sendCount + 1)).filter _ = _
    rw [List.range_succ, List.filter_append, List.filter_congr hold, List.filter_singleton, hself]
    by_cases hpeer : (w.conns task.conn).peer = some t <;> simp [responses, Worker.startSend, hpeer]
  have hk : ((w.startSend task).sends w.sendCount).put = 0 := by rw [hself, hput]
  have hmem : ∀ t, ∀ k ∈ w.responses t, (w.startSend task).sends k = w.sends k := fun t k hk =>
    hother k (mem_responses.mp hk).1
  have hone : ∀ t, OneByOne (w.responses t) (fun k => ((w.startSend task).sends k).message)
      fun k => ((w.startSend task).sends k).put := fun t =>
    (h.oneByOne t).congr (fun k hk => by rw [hmem t k hk]) fun k hk => by rw [hmem t k hk]
  have hwire : ∀ t, w.wire t = delivered (w.responses t)
      (fun k => ((w.startSend task).sends k).message)
      fun k => ((w.startSend task).sends k).put := fun t =>
    (h.wire t).trans (delivered_congr (fun k hk => by rw [hmem t k hk])
      fun k hk => by rw [hmem t k hk]).symm
  refine ⟨fun t => ?_, fun t => ?_⟩ <;> rw [hresponses] <;> split
  · exact (hone t).concat hk
  · rw [List.append_nil]
    exact hone t
  · refine (hwire t).trans (Eq.symm (delivered_concat ?_))
    exact hk
  · rw [List.append_nil]
    exact hwire t

theorem Sent.serve {conn : ℕ} {replies : List Bytes} (h : w.Sent)
    (hok : w.serve conn replies = .ok w') : w'.Sent := by
  induction replies generalizing w with
  | nil => exact Except.ok.inj hok ▸ h
  | cons message replies ih =>
    obtain ⟨w₁, hsend, hrest⟩ := bind_eq_ok hok
    refine ih ?_ hrest
    rcases send_eq_ok hsend with ⟨-, rfl⟩ | ⟨-, rfl⟩
    · exact (h.startSend rfl).of_eq rfl rfl rfl rfl
    · exact h.startSend rfl

theorem Sent.dispatch {replies : List Bytes} {c : Completion} {cq : List Completion} (h : w.Sent)
    (hw : w.Wired) {left : ℕ} (hok : (w.cqeSeen cq left).dispatch replies c = .ok w') :
    w'.Sent := by
  have hseen : (w.cqeSeen cq left).Sent := h.of_eq rfl rfl rfl rfl
  have hconn := hw.targets.conn_lt hw.descriptors
  obtain ⟨-, hresumed⟩ := resumed_of_dispatch hok
  cases hresumed with
  | acceptDestroyed => exact hseen.of_eq rfl rfl rfl rfl
  | acceptFailed harm =>
    cases harm with
    | still => exact hseen
    | again hok => exact hseen.prepare hok
  | connected harm hres hrecv =>
    refine Sent.prepare ?_ hrecv
    cases harm with
    | still => exact hseen.connect hconn _
    | again hok =>
      have harmed := hseen.prepare hok
      rw [prepare_eq_ok hok] at harmed ⊢
      exact harmed.connect hconn _
  | left hres => exact hseen.leave _
  | kept hpos hparse hrecv => exact (hseen.setRaw _ _).prepare hrecv
  | served hpos hparse hserve hrecv => exact ((hseen.setRaw _ _).serve hserve).prepare hrecv
  | sendDestroyed => exact hseen.setSend _ _ rfl rfl rfl
  | sendEnded => exact hseen.setSend _ _ rfl rfl rfl
  | sendAgain htime hresumed hok =>
    refine Sent.prepare ?_ hok
    exact hseen.setSend _ _ rfl rfl rfl

/-! ## The kernel does -/

/-- **Bytes that are put on a wire in turn go on where it ends.** -/
theorem Sent.transmit {k t : ℕ} {bytes : Bytes} (h : w.Sent) (hd : w.Descriptors)
    (hk : k < w.sendCount) (hpeer : (w.conns (w.sends k).conn).peer = some t) (hturn : w.HasTurn k)
    (hbytes : bytes <+: (w.sends k).message.drop (w.sends k).put) (hne : bytes ≠ []) :
    (w.transmit k (some t) bytes).Sent := by
  have hself : (w.transmit k (some t) bytes).sends k
      = { w.sends k with put := (w.sends k).put + bytes.length } := Function.update_self _ _ _
  have hother : ∀ j, j ≠ k → (w.transmit k (some t) bytes).sends j = w.sends j := fun j hj =>
    Function.update_of_ne hj _ _
  have hmessage : ∀ j, ((w.transmit k (some t) bytes).sends j).message = (w.sends j).message :=
    fun j => by rcases eq_or_ne j k with rfl | hj <;> simp [*]
  have hconn : ∀ j, ((w.transmit k (some t) bytes).sends j).conn = (w.sends j).conn :=
    fun j => by rcases eq_or_ne j k with rfl | hj <;> simp [*]
  have hresponses : ∀ t', (w.transmit k (some t) bytes).responses t' = w.responses t' := fun t' =>
    List.filter_congr fun j _ => by rw [hconn]; rfl
  have hmem : k ∈ w.responses t := mem_responses.mpr ⟨hk, hpeer⟩
  obtain ⟨pre, post, hsplit⟩ := List.append_of_mem hmem
  have hsorted := w.responses_sorted t
  have hone := h.oneByOne t
  have hwire := h.wire t
  rw [hsplit] at hsorted hone hwire
  have hfull : ∀ i ∈ pre, (w.sends i).put = (w.sends i).message.length := by
    intro i hi
    have hlt := (List.pairwise_append.mp hsorted).2.2 i hi k List.mem_cons_self
    have hi' := mem_responses.mp (hsplit ▸ List.mem_append_left _ hi)
    exact hturn i hlt (hd.distinct _ _ t hi'.2 hpeer)
  obtain ⟨hone', hwire'⟩ := hone.grow
    (fun j => ((w.transmit k (some t) bytes).sends j).put)
    (hsorted.imp fun hlt => Nat.ne_of_lt hlt) hfull hbytes hne (by simp only [hself])
    fun j hj => by rw [hother j hj]
  -- the responses of the other connections are where they were
  have hrest : ∀ t', t' ≠ t → ∀ j ∈ w.responses t',
      ((w.transmit k (some t) bytes).sends j).put = (w.sends j).put := by
    intro t' ht j hj
    rw [hother j]
    rintro rfl
    exact ht (Option.some.inj ((mem_responses.mp hj).2.symm.trans hpeer))
  refine ⟨fun t' => ?_, fun t' => ?_⟩ <;> rw [hresponses] <;> rcases eq_or_ne t' t with rfl | ht
  · rw [hsplit]
    exact hone'.congr (fun j _ => hmessage j) fun _ _ => rfl
  · exact (h.oneByOne t').congr (fun j _ => hmessage j) (hrest t' ht)
  · rw [hsplit, delivered_congr (fun j _ => hmessage j) fun _ _ => rfl, hwire', ← hwire]
    exact Function.update_self _ _ _
  · rw [delivered_congr (fun j _ => hmessage j) (hrest t' ht), ← h.wire t']
    exact Function.update_of_ne ht _ _

/-- A negative result, or none at all, puts nothing there. -/
theorem Sent.transmit_nil (h : w.Sent) (k : ℕ) (target : Option ℕ) :
    (w.transmit k target []).Sent := by
  have hset := h.setSend k { w.sends k with put := (w.sends k).put + 0 } rfl rfl rfl
  refine hset.of_eq rfl rfl rfl ?_
  cases target with
  | none => rfl
  | some t =>
    change Function.update w.wire t (w.wire t ++ []) = w.wire
    rw [List.append_nil, Function.update_eq_self]

theorem Sent.step {a : WorkerAction} (h : w.Sent) (hw : w.Wired) (hst : w.step a = some w')
    (ha : w.InTurn a) : w'.Sent := by
  obtain ⟨-, hstepped⟩ := stepped_of_step hst
  cases hstepped with
  | submit hloop => exact h.of_eq rfl rfl rfl rfl
  | collect => exact h.of_eq rfl rfl rfl rfl
  | dispatch hloop hcq hok => exact h.dispatch hw hok
  | fault => exact h.of_eq rfl rfl rfl rfl
  | completeAccept => exact h.of_eq rfl rfl rfl rfl
  | completeRecv => exact h.of_eq rfl rfl rfl rfl
  | @completeSend j k offset length res fd bytes target hj hroom hanswer =>
    obtain ⟨hlength, -, -, hread⟩ := hanswer
    suffices hsent : (w.transmit k target bytes).Sent from hsent.of_eq rfl rfl rfl rfl
    have hmem := List.mem_of_getElem? hj
    have hk := hw.awaited.lt_sendCount (tag_mem_of_kernel hmem)
    rcases Int.lt_or_le 0 res with hpos | hle
    · obtain ⟨hturn, hkept⟩ := ha hpos _ hj
      have hnext : target = (w.conns (w.sends k).conn).peer ∧
          bytes <+: (w.sends k).message.drop (w.sends k).put := by
        cases hrel : (w.sends k).released with
        | true => exact hkept hrel
        | false =>
          obtain ⟨rfl, hput, htarget⟩ := hw.targets.sentFirst _ hmem k fd offset length rfl hrel
          exact ⟨htarget, hput ▸ hread hrel⟩
      obtain ⟨t, ht⟩ := Option.isSome_iff_exists.mp (hw.targets.sendPeer k hk)
      obtain rfl : target = some t := hnext.1.trans ht
      refine h.transmit hw.descriptors hk ht hturn hnext.2 ?_
      rintro rfl
      rw [List.length_nil, max_eq_left hpos.le] at hlength
      exact absurd hlength hpos.ne
    · obtain rfl : bytes = [] := List.eq_nil_of_length_eq_zero (by omega)
      exact h.transmit_nil k target

end Worker

theorem sent_init : Worker.Sent workerSystem.init := ⟨fun _ => List.Pairwise.nil, fun _ => rfl⟩

/-- **Responses do not interleave in a run all of whose bytes are put on the wire in turn.** -/
theorem inOrder_of_forall_inTurn (run : List WorkerAction)
    (hturn : ∀ m ∈ workerSystem.moves run, m.src.InTurn m.act) :
    ∀ w ∈ workerSystem.visited run, w.InOrder := fun w hw =>
  (System.forall_visited_of_moves (fun w : Worker => w.Wired ∧ w.Sent) ⟨wired_init, sent_init⟩
    (fun _ _ _ h hst ha => ⟨h.1.step hst, h.2.step h.1 hst ha⟩) hturn w hw).2.inOrder

/-! ## Two requests without waiting -/

/-- What a handler sends for a body of four bytes. -/
def okMessage (body : String) : Bytes :=
  ascii "HTTP/1.0 200 OK\r\nContent-Length:4\r\n\r\n" ++ ascii body

/-- A client asks twice without waiting, and gets the responses the kernel is done with. -/
def pipelinedRun (done : List WorkerAction) : List WorkerAction :=
  [.submit, .completeAccept 0 5 true, .collect, .dispatch [], .submit,
    .completeRecv 1 22 (ascii "GET /ping HTTP/1.1\r\n\r\n"), .collect,
    .dispatch [okMessage "ping"], .submit,
    .completeRecv 2 22 (ascii "GET /pong HTTP/1.1\r\n\r\n"), .collect,
    .dispatch [okMessage "pong"], .submit] ++ done

/-- The kernel is done with the first response first… -/
def inTurnRun : List WorkerAction :=
  pipelinedRun [.completeSend 1 41 (okMessage "ping"), .completeSend 1 41 (okMessage "pong")]

/-- …or with the second. -/
def overtakingRun : List WorkerAction := pipelinedRun [.completeSend 2 41 (okMessage "pong")]

theorem inOrder_inTurnRun : (∀ m ∈ workerSystem.moves inTurnRun, m.src.InTurn m.act) ∧
    ∀ w ∈ workerSystem.visited inTurnRun, w.InOrder :=
  ⟨by decide, inOrder_of_forall_inTurn inTurnRun (by decide)⟩

/-- **The second response overtakes the first.** -/
theorem not_inOrder_overtakingRun : ¬ ∀ w ∈ workerSystem.visited overtakingRun, w.InOrder := by
  intro h
  obtain ⟨w, hrun, hwire, hresponses⟩ : ∃ w, workerSystem.run overtakingRun = some w ∧
      w.wire 0 = okMessage "pong" ∧
      ((w.responses 0).map fun k => (w.sends k).message) = [okMessage "ping", okMessage "pong"] :=
    ⟨_, rfl, rfl, rfl⟩
  have hprefix := h w (workerSystem.mem_visited_of_run hrun) 0
  rw [hwire, hresponses] at hprefix
  exact absurd hprefix (by decide)

end YServer
