import YServer.BaseNet.Descriptors

/-!
# BaseNet/Targets — what a submitted request reaches

The kernel finds the socket of a request when the request is submitted, by the descriptor written in
it.  For a recv, and for the first request of a response, that is the socket of the connection they
are for: the handler that prepares them is still in its loop when they are submitted, since its own
next recv goes with them.

For the later requests of a response nothing of the kind holds: they are prepared by the send
coroutine alone.
-/

namespace YServer

open Machinery

namespace Worker

/-- **Where requests go.** -/
structure Targets (running : Option Tag) (w : Worker) : Prop where
  queuedRecv : ∀ i fd, .recv i fd ∈ w.sq → fd = (w.conns i).rawFileDescriptor
  sentRecv : ∀ f ∈ w.kernel, ∀ i fd, f.request = .recv i fd → f.target = (w.conns i).peer
  /-- Data comes from a peer. -/
  data : ∀ i res packet, .recv i res packet ∈ w.cq → 0 ≤ res → (w.conns i).peer.isSome
  /-- Responses are for handlers with a peer. -/
  sendPeer : ∀ k < w.sendCount, (w.conns (w.sends k).conn).peer.isSome
  /-- A prepared send names the descriptor of its handler's socket. -/
  queuedSend : ∀ k fd offset length, .send k fd offset length ∈ w.sq →
    fd = (w.conns (w.sends k).conn).rawFileDescriptor
  /-- The first one goes to the kernel together with the handler's next recv… -/
  queuedFirst : ∀ k fd offset length, .send k fd offset length ∈ w.sq →
    (w.sends k).released = false → offset = 0 ∧ (w.sends k).put = 0 ∧
      (w.conns (w.sends k).conn).inLoop = true ∧
      (.recv (w.sends k).conn ∈ w.sq.map Request.tag ∨ running = some (.recv (w.sends k).conn))
  /-- …and so it reaches the handler's peer. -/
  sentFirst : ∀ f ∈ w.kernel, ∀ k fd offset length, f.request = .send k fd offset length →
    (w.sends k).released = false → offset = 0 ∧ (w.sends k).put = 0 ∧
      f.target = (w.conns (w.sends k).conn).peer

variable {w w' : Worker} {running : Option Tag}

/-! ## Which coroutines requests name -/

section Mem

theorem tag_mem_of_sq {request : Request} (h : request ∈ w.sq) : request.tag ∈ w.outstanding :=
  List.mem_append_left _ (List.mem_append_left _ (List.mem_map_of_mem h))

theorem tag_mem_of_kernel {f : InFlight} (h : f ∈ w.kernel) : f.request.tag ∈ w.outstanding :=
  List.mem_append_left _ (List.mem_append_right _ (List.mem_map_of_mem h))

theorem tag_mem_of_cq {c : Completion} (h : c ∈ w.cq) : c.tag ∈ w.outstanding :=
  List.mem_append_right _ (List.mem_map_of_mem h)

/-- A request names no send coroutine that has not been started… -/
theorem Awaited.lt_sendCount (h : w.Awaited running) {k : ℕ} (hmem : .send k ∈ w.outstanding) :
    k < w.sendCount := by
  by_contra hle
  have halive := (h.alive_of_mem (by simp) hmem).1
  rw [alive, h.freshSend k (Nat.le_of_not_lt hle)] at halive
  cases halive

/-- …and no handler. -/
theorem Awaited.lt_connCount (h : w.Awaited running) {i : ℕ} (hmem : .recv i ∈ w.outstanding) :
    i < w.connCount := by
  by_contra hle
  have halive := (h.alive_of_mem (by simp) hmem).1
  rw [alive, h.freshConn i (Nat.le_of_not_lt hle)] at halive
  cases halive

/-- Nothing is outstanding for the coroutine that runs. -/
theorem Awaited.ne_of_running (h : w.Awaited running) {tag : Tag} (hne : tag ≠ .accept)
    (hrun : running = some tag) {tag' : Tag} (hmem : tag' ∈ w.outstanding) : tag' ≠ tag := by
  rintro rfl
  exact (h.alive_of_mem hne hmem).2 hrun

end Mem

/-! ## The primitives -/

/-- What the sockets and the send coroutines are to requests has not changed. -/
theorem Targets.congr (h : w.Targets running) (hsq : w'.sq = w.sq)
    (hkernel : ∀ f ∈ w'.kernel, f ∈ w.kernel)
    (hcq : ∀ i res packet, .recv i res packet ∈ w'.cq → 0 ≤ res → (w.conns i).peer.isSome)
    (hpeer : ∀ i, (w'.conns i).peer = (w.conns i).peer)
    (hfd : ∀ i, (w'.conns i).rawFileDescriptor = (w.conns i).rawFileDescriptor)
    (hinLoop : ∀ i, (w'.conns i).inLoop = (w.conns i).inLoop)
    (hsends : w'.sends = w.sends) (hcount : w'.sendCount = w.sendCount) :
    w'.Targets running where
  queuedRecv i fd := by rw [hsq, hfd]; exact h.queuedRecv i fd
  sentRecv f hf i fd := by rw [hpeer]; exact h.sentRecv f (hkernel f hf) i fd
  data i res packet hmem hres := by rw [hpeer]; exact hcq i res packet hmem hres
  sendPeer k := by rw [hcount, hsends, hpeer]; exact h.sendPeer k
  queuedSend k fd offset length := by
    rw [hsq, hsends, hfd]
    exact h.queuedSend k fd offset length
  queuedFirst k fd offset length := by
    rw [hsq, hsends, hinLoop]
    exact h.queuedFirst k fd offset length
  sentFirst f hf k fd offset length := by
    rw [hsends, hpeer]
    exact h.sentFirst f (hkernel f hf) k fd offset length

theorem Targets.cqeSeen (h : w.Targets running) {c : Completion} {cq : List Completion}
    (hcq : w.cq = c :: cq) (left : ℕ) : (w.cqeSeen cq left).Targets running :=
  h.congr rfl (fun _ hf => hf)
    (fun i res packet hmem => h.data i res packet (by rw [hcq]; exact List.mem_cons_of_mem _ hmem))
    (fun _ => rfl) (fun _ => rfl) (fun _ => rfl) rfl rfl

/-- A handler about to serve counts as running. -/
theorem Targets.serving (h : w.Targets none) (tag : Tag) : w.Targets (some tag) :=
  { h with
    queuedFirst := fun k fd offset length hmem hrel => by
      obtain ⟨hoff, hput, hin, hrecv | hnone⟩ := h.queuedFirst k fd offset length hmem hrel
      · exact ⟨hoff, hput, hin, Or.inl hrecv⟩
      · cases hnone }

theorem Targets.setRaw (h : w.Targets running) (conn : ℕ) (raw : Bytes) :
    (w.setRaw conn raw).Targets running :=
  h.congr rfl (fun _ hf => hf) h.data (peer_setRaw conn raw) (rawFileDescriptor_setRaw conn raw)
    (inLoop_setRaw conn raw) rfl rfl

/-- **The running handler prepares its recv.** -/
theorem Targets.recv {conn : ℕ} (h : w.Targets (some (.recv conn))) (hok : w.recv conn = .ok w') :
    w'.Targets none := by
  rw [prepare_eq_ok hok]
  refine ⟨fun i fd hmem => ?_, h.sentRecv, h.data, h.sendPeer, fun k fd offset length hmem => ?_,
    fun k fd offset length hmem hrel => ?_, h.sentFirst⟩
  · rcases List.mem_append.mp hmem with hmem | hmem
    · exact h.queuedRecv i fd hmem
    · obtain ⟨rfl, rfl⟩ := Request.recv.inj (List.mem_singleton.mp hmem)
      rfl
  · rcases List.mem_append.mp hmem with hmem | hmem
    · exact h.queuedSend k fd offset length hmem
    · cases List.mem_singleton.mp hmem
  · rcases List.mem_append.mp hmem with hmem | hmem
    · obtain ⟨hoff, hput, hin, hrecv⟩ := h.queuedFirst k fd offset length hmem hrel
      refine ⟨hoff, hput, hin, Or.inl ?_⟩
      rw [List.map_append, List.mem_append]
      rcases hrecv with hrecv | hrun
      · exact Or.inl hrecv
      · exact Or.inr (by rw [← Option.some.inj hrun]; exact List.mem_singleton_self _)
    · cases List.mem_singleton.mp hmem

theorem Targets.prepare_accept (h : w.Targets none) (hok : w.prepare .accept = .ok w') :
    w'.Targets none := by
  rw [prepare_eq_ok hok]
  have hmem : ∀ request : Request, request ≠ .accept →
      request ∈ w.sq ++ [.accept] → request ∈ w.sq := by
    intro request hne hmem
    rcases List.mem_append.mp hmem with hmem | hmem
    · exact hmem
    · exact absurd (List.mem_singleton.mp hmem) hne
  refine ⟨fun i fd h' => h.queuedRecv i fd (hmem _ (by simp) h'), h.sentRecv, h.data, h.sendPeer,
    fun k fd offset length h' => h.queuedSend k fd offset length (hmem _ (by simp) h'),
    fun k fd offset length h' hrel => ?_, h.sentFirst⟩
  obtain ⟨hoff, hput, hin, hrecv | hnone⟩ :=
    h.queuedFirst k fd offset length (hmem _ (by simp) h') hrel
  · refine ⟨hoff, hput, hin, Or.inl ?_⟩
    rw [List.map_append]
    exact List.mem_append_left _ hrecv
  · cases hnone

/-- **A handler that leaves has no first request of a response queued**: those wait for the same
submission as its recv, and that has completed. -/
theorem Targets.leave {conn : ℕ} (h : w.Targets none) (ha : w.Awaited (some (.recv conn))) :
    (w.leave conn).Targets none := by
  refine ⟨fun i fd => by rw [rawFileDescriptor_leave]; exact h.queuedRecv i fd,
    fun f hf i fd => by rw [peer_leave]; exact h.sentRecv f hf i fd,
    fun i res packet => by rw [peer_leave]; exact h.data i res packet,
    fun k => by rw [peer_leave]; exact h.sendPeer k,
    fun k fd offset length => by
      rw [rawFileDescriptor_leave]
      exact h.queuedSend k fd offset length,
    fun k fd offset length hmem hrel => ?_,
    fun f hf k fd offset length => by rw [peer_leave]; exact h.sentFirst f hf k fd offset length⟩
  obtain ⟨hoff, hput, hin, hrecv | hnone⟩ := h.queuedFirst k fd offset length hmem hrel
  · refine ⟨hoff, hput, ?_, Or.inl hrecv⟩
    have hout : .recv (w.sends k).conn ∈ w.outstanding :=
      List.mem_append_left _ (List.mem_append_left _ hrecv)
    have hne : (w.sends k).conn ≠ conn := fun heq =>
      ha.ne_of_running (by simp) rfl hout (congrArg Tag.recv heq)
    change ((w.leave conn).conns (w.sends k).conn).inLoop = true
    simpa [Worker.leave, hne] using hin
  · cases hnone

/-- Responses are for connections there are. -/
theorem Targets.conn_lt (h : w.Targets running) (hd : w.Descriptors) :
    ∀ k < w.sendCount, (w.sends k).conn < w.connCount := by
  intro k hk
  by_contra hle
  have hpeer := h.sendPeer k hk
  rw [hd.freshPeer _ (Nat.le_of_not_lt hle)] at hpeer
  cases hpeer

/-- **A new socket takes nobody's place.** -/
theorem Targets.connect (h : w.Targets none) (ha : w.Awaited none) (hd : w.Descriptors) (fd : ℤ) :
    (w.connect fd).Targets none := by
  have hother : ∀ i, i < w.connCount → (w.connect fd).conns i = w.conns i := fun i hi =>
    Function.update_of_ne hi.ne _ _
  have hconn := h.conn_lt hd
  refine ⟨fun i fd' hmem => ?_, fun f hf i fd' hreq => ?_, fun i res packet hmem hres => ?_,
    fun k hk => ?_, fun k fd' offset length hmem => ?_, fun k fd' offset length hmem hrel => ?_,
    fun f hf k fd' offset length hreq hrel => ?_⟩
  · rw [hother i (ha.lt_connCount (tag_mem_of_sq hmem))]
    exact h.queuedRecv i fd' hmem
  · have hmem := tag_mem_of_kernel hf
    rw [hreq] at hmem
    rw [hother i (ha.lt_connCount hmem)]
    exact h.sentRecv f hf i fd' hreq
  · rw [hother i (ha.lt_connCount (tag_mem_of_cq hmem))]
    exact h.data i res packet hmem hres
  · exact (congrArg (fun c => c.peer.isSome) (hother _ (hconn k hk))).trans (h.sendPeer k hk)
  · have hk := hconn k (ha.lt_sendCount (tag_mem_of_sq hmem))
    exact (h.queuedSend k fd' offset length hmem).trans
      (congrArg Connection.rawFileDescriptor (hother _ hk)).symm
  · have hk := hconn k (ha.lt_sendCount (tag_mem_of_sq hmem))
    obtain ⟨hoff, hput, hin, hrecv⟩ := h.queuedFirst k fd' offset length hmem hrel
    exact ⟨hoff, hput, (congrArg Connection.inLoop (hother _ hk)).trans hin, hrecv⟩
  · have hmem := tag_mem_of_kernel hf
    rw [hreq] at hmem
    obtain ⟨hoff, hput, htarget⟩ := h.sentFirst f hf k fd' offset length hreq hrel
    exact ⟨hoff, hput, htarget.trans
      (congrArg Connection.peer (hother _ (hconn k (ha.lt_sendCount hmem)))).symm⟩

/-- **The send coroutine that runs may change its own variables**, short of its connection. -/
theorem Targets.setSend (h : w.Targets running) (k : ℕ) (task : SendTask)
    (hgone : .send k ∉ w.sq.map Request.tag ∧ .send k ∉ w.kernel.map fun f => f.request.tag)
    (hconn : task.conn = (w.sends k).conn) : (w.setSend k task).Targets running := by
  have hother : ∀ j, j ≠ k → (w.setSend k task).sends j = w.sends j := fun j hj =>
    Function.update_of_ne hj _ _
  have hconns : ∀ j, ((w.setSend k task).sends j).conn = (w.sends j).conn := fun j => by
    rcases eq_or_ne j k with rfl | hne
    · simpa [Worker.setSend] using hconn
    · rw [hother j hne]
  have hsq : ∀ {j fd offset length}, .send j fd offset length ∈ w.sq → j ≠ k := by
    rintro j fd offset length hmem rfl
    exact hgone.1 (List.mem_map_of_mem (f := Request.tag) hmem)
  have hkernel : ∀ {f : InFlight} {j fd offset length}, f ∈ w.kernel →
      f.request = .send j fd offset length → j ≠ k := by
    rintro f j fd offset length hf hreq rfl
    refine hgone.2 ?_
    have hmem := List.mem_map_of_mem (f := fun f : InFlight => f.request.tag) hf
    rwa [hreq] at hmem
  refine ⟨h.queuedRecv, h.sentRecv, h.data, fun j => by rw [hconns]; exact h.sendPeer j,
    fun j fd offset length => by rw [hconns]; exact h.queuedSend j fd offset length,
    fun j fd offset length hmem => ?_, fun f hf j fd offset length hreq => ?_⟩
  · rw [hother j (hsq hmem)]
    exact h.queuedFirst j fd offset length hmem
  · rw [hother j (hkernel hf hreq)]
    exact h.sentFirst f hf j fd offset length hreq

/-- **A send coroutine prepares a later request.** -/
theorem Targets.prepare_send (k offset length : ℕ) (h : w.Targets none)
    (hrel : (w.sends k).released = true)
    (hok : w.prepare (.send k (w.conns (w.sends k).conn).rawFileDescriptor offset length)
      = .ok w') :
    w'.Targets none := by
  rw [prepare_eq_ok hok]
  refine ⟨fun i fd hmem => ?_, h.sentRecv, h.data, h.sendPeer, fun j fd offset' length' hmem => ?_,
    fun j fd offset' length' hmem hrel' => ?_, h.sentFirst⟩
  · rcases List.mem_append.mp hmem with hmem | hmem
    · exact h.queuedRecv i fd hmem
    · cases List.mem_singleton.mp hmem
  · rcases List.mem_append.mp hmem with hmem | hmem
    · exact h.queuedSend j fd offset' length' hmem
    · obtain ⟨rfl, rfl, -, -⟩ := Request.send.inj (List.mem_singleton.mp hmem)
      rfl
  · rcases List.mem_append.mp hmem with hmem | hmem
    · obtain ⟨hoff, hput, hin, hrecv | hnone⟩ := h.queuedFirst j fd offset' length' hmem hrel'
      · refine ⟨hoff, hput, hin, Or.inl ?_⟩
        rw [List.map_append]
        exact List.mem_append_left _ hrecv
      · cases hnone
    · obtain ⟨rfl, -, -, -⟩ := Request.send.inj (List.mem_singleton.mp hmem)
      exact absurd (hrel.symm.trans hrel') (by decide)

/-- A coroutine that starts is awaited by nothing yet. -/
theorem Targets.startSend {running : Option Tag} {task : SendTask} (h : w.Targets running)
    (ha : w.Awaited running) (hpeer : (w.conns task.conn).peer.isSome) :
    (w.startSend task).Targets running := by
  have hother : ∀ j, j < w.sendCount → (w.startSend task).sends j = w.sends j := fun j hj =>
    Function.update_of_ne hj.ne _ _
  refine ⟨h.queuedRecv, h.sentRecv, h.data, fun j hj => ?_, fun j fd offset length hmem => ?_,
    fun j fd offset length hmem => ?_, fun f hf j fd offset length hreq => ?_⟩
  · have hlt : j < w.sendCount + 1 := hj
    rcases Nat.lt_succ_iff_lt_or_eq.mp hlt with hlt | rfl
    · rw [hother j hlt]
      exact h.sendPeer j hlt
    · simpa [Worker.startSend] using hpeer
  · rw [hother j (ha.lt_sendCount (tag_mem_of_sq hmem))]
    exact h.queuedSend j fd offset length hmem
  · rw [hother j (ha.lt_sendCount (tag_mem_of_sq hmem))]
    exact h.queuedFirst j fd offset length hmem
  · have hmem := tag_mem_of_kernel hf
    rw [hreq] at hmem
    rw [hother j (ha.lt_sendCount hmem)]
    exact h.sentFirst f hf j fd offset length hreq

/-- **A running handler starts a response.** -/
theorem Targets.send {conn : ℕ} {message : Bytes} (h : w.Targets (some (.recv conn)))
    (ha : w.Awaited (some (.recv conn))) (halive : (w.conns conn).inLoop = true)
    (hpeer : (w.conns conn).peer.isSome) (hok : w.send conn message = .ok w') :
    w'.Targets (some (.recv conn)) := by
  rcases send_eq_ok hok with ⟨-, rfl⟩ | ⟨-, rfl⟩
  · have hnew : (w.startSend ⟨conn, message, 0, true, false, 0⟩).sends w.sendCount
        = ⟨conn, message, 0, true, false, 0⟩ := Function.update_self _ _ _
    have h' : (w.startSend ⟨conn, message, 0, true, false, 0⟩).Targets (some (.recv conn)) :=
      h.startSend ha hpeer
    refine ⟨fun i fd hmem => ?_, h'.sentRecv, h'.data, h'.sendPeer,
      fun j fd offset length hmem => ?_, fun j fd offset length hmem hrel => ?_, h'.sentFirst⟩
    · rcases List.mem_append.mp hmem with hmem | hmem
      · exact h'.queuedRecv i fd hmem
      · cases List.mem_singleton.mp hmem
    · rcases List.mem_append.mp hmem with hmem | hmem
      · exact h'.queuedSend j fd offset length hmem
      · obtain ⟨rfl, rfl, -, -⟩ := Request.send.inj (List.mem_singleton.mp hmem)
        change _ = (w.conns ((w.startSend _).sends w.sendCount).conn).rawFileDescriptor
        rw [hnew]
    · rcases List.mem_append.mp hmem with hmem | hmem
      · obtain ⟨hoff, hput, hin, hrecv⟩ := h'.queuedFirst j fd offset length hmem hrel
        refine ⟨hoff, hput, hin, hrecv.imp_left fun hmem' => ?_⟩
        rw [List.map_append]
        exact List.mem_append_left _ hmem'
      · obtain ⟨rfl, -, rfl, -⟩ := Request.send.inj (List.mem_singleton.mp hmem)
        change 0 = 0 ∧ ((w.startSend _).sends w.sendCount).put = 0 ∧
          (w.conns ((w.startSend _).sends w.sendCount).conn).inLoop = true ∧
          (_ ∨ some (Tag.recv conn) = some (.recv ((w.startSend _).sends w.sendCount).conn))
        rw [hnew]
        exact ⟨rfl, rfl, halive, Or.inr rfl⟩
  · exact h.startSend ha hpeer

theorem Targets.serve {conn : ℕ} {replies : List Bytes} (h : w.Targets (some (.recv conn)))
    (ha : w.Awaited (some (.recv conn))) (halive : (w.conns conn).inLoop = true)
    (hpeer : (w.conns conn).peer.isSome) (hok : w.serve conn replies = .ok w') :
    w'.Targets (some (.recv conn)) := by
  induction replies generalizing w with
  | nil => exact Except.ok.inj hok ▸ h
  | cons message replies ih =>
    obtain ⟨w₁, hsend, hrest⟩ := bind_eq_ok hok
    have hconns : w₁.conns = w.conns := by
      rcases send_eq_ok hsend with ⟨-, rfl⟩ | ⟨-, rfl⟩ <;> rfl
    refine ih (h.send ha halive hpeer hsend) (ha.send (fun k hk => by cases hk) hsend) ?_ ?_ hrest
    · rw [hconns]
      exact halive
    · rw [hconns]
      exact hpeer

/-! ## Whole runs -/

/-- A coroutine whose request has completed has nothing to submit and nothing submitted. -/
theorem Awaited.completed (h : w.Awaited none) {c : Completion} (hmem : c ∈ w.cq)
    (hne : c.tag ≠ .accept) :
    c.tag ∉ w.sq.map Request.tag ∧ c.tag ∉ w.kernel.map fun f => f.request.tag := by
  obtain ⟨halive, hrun⟩ := h.alive_of_mem hne (tag_mem_of_cq hmem)
  have hcount := h.once c.tag hne halive hrun
  have hpos : 0 < (w.cq.map Completion.tag).count c.tag :=
    List.count_pos_iff.mpr (List.mem_map_of_mem hmem)
  rw [count_outstanding] at hcount
  exact ⟨List.count_eq_zero.mp (by omega), List.count_eq_zero.mp (by omega)⟩

/-- A send coroutine with nothing outstanding has nothing to submit and nothing submitted. -/
theorem Awaited.gone (h : w.Awaited running) {k : ℕ} (hrun : running = some (.send k)) :
    .send k ∉ w.sq.map Request.tag ∧ .send k ∉ w.kernel.map fun f => f.request.tag := by
  have hout : Tag.send k ∉ w.outstanding := fun hmem => (h.alive_of_mem (by simp) hmem).2 hrun
  exact ⟨fun hmem => hout (List.mem_append_left _ (List.mem_append_left _ hmem)),
    fun hmem => hout (List.mem_append_left _ (List.mem_append_right _ hmem))⟩

/-- **A dispatched completion prepares what goes to its own connection.** -/
theorem Targets.dispatch {replies : List Bytes} {c : Completion} {cq : List Completion}
    (h : w.Targets none) (ha : w.Awaited none) (hd : w.Descriptors) (hcq : w.cq = c :: cq)
    {left : ℕ} (hok : (w.cqeSeen cq left).dispatch replies c = .ok w') : w'.Targets none := by
  have hseen := h.cqeSeen hcq left
  have haseen := ha.cqeSeen hcq left
  obtain ⟨halive, hresumed⟩ := resumed_of_dispatch hok
  have hdata : ∀ i res packet, c = .recv i res packet → 0 ≤ res → (w.conns i).peer.isSome := by
    rintro i res packet rfl hres
    exact h.data i res packet (by rw [hcq]; exact List.mem_cons_self) hres
  cases hresumed with
  | acceptDestroyed =>
    exact hseen.congr rfl (fun _ hf => hf) hseen.data (fun _ => rfl) (fun _ => rfl) (fun _ => rfl)
      rfl rfl
  | acceptFailed harm =>
    cases harm with
    | still => exact hseen
    | again hok => exact hseen.prepare_accept hok
  | connected harm hres hrecv =>
    have hdseen := hd.cqeSeen hcq left
    refine Targets.recv (Targets.serving ?_ _) hrecv
    cases harm with
    | still => exact hseen.connect haseen.of_accept hdseen _
    | again hok =>
      exact (hseen.prepare_accept hok).connect (haseen.of_accept.prepare_accept hok)
        (hdseen.prepare hok) _
  | left hres => exact hseen.leave haseen
  | kept hpos hparse hrecv => exact ((hseen.setRaw _ _).serving _).recv hrecv
  | @served conn res packet raw request w₁ w' hpos hparse hserve hrecv =>
    have hpeer : ((w.setRaw conn raw).conns conn).peer.isSome := by
      rw [peer_setRaw]
      exact hdata conn res packet rfl hpos.le
    exact Targets.recv (((hseen.setRaw conn raw).serving _).serve (haseen.setRaw conn raw)
      ((inLoop_setRaw conn raw conn).trans halive) hpeer hserve) hrecv
  | sendDestroyed => exact hseen.setSend _ _ (haseen.gone rfl) rfl
  | sendEnded => exact hseen.setSend _ _ (haseen.gone rfl) rfl
  | @sendAgain k offset res w' htime hresumed hok =>
    have hset := hseen.setSend k
      { w.sends k with released := true, bytesSent := offset } (haseen.gone rfl) rfl
    have hself : ((w.cqeSeen cq left).setSend k
        { w.sends k with released := true, bytesSent := offset }).sends k
          = { w.sends k with released := true, bytesSent := offset } := Function.update_self _ _ _
    refine Targets.prepare_send k offset (w.sends k).message.length hset (by rw [hself]) ?_
    rw [hself]
    exact hok

/-- **Submitted requests reach what their handlers' sockets stand for.** -/
theorem Targets.submit (h : w.Targets none) (ha : w.Awaited none) (hd : w.Descriptors) :
    Targets none { w with
      sq := []
      kernel := w.kernel ++ w.sq.map w.resolve
      loop := .waiting } := by
  refine ⟨fun i fd hmem => (List.not_mem_nil hmem).elim, fun f hf i fd hreq => ?_, h.data,
    h.sendPeer, fun k fd offset length hmem => (List.not_mem_nil hmem).elim,
    fun k fd offset length hmem => (List.not_mem_nil hmem).elim,
    fun f hf k fd offset length hreq hrel => ?_⟩
  · rcases List.mem_append.mp hf with hf | hf
    · exact h.sentRecv f hf i fd hreq
    · obtain ⟨request, hmem, rfl⟩ := List.mem_map.mp hf
      obtain rfl : request = .recv i fd := hreq
      have halive := (ha.alive_of_mem (by simp [Request.tag]) (tag_mem_of_sq hmem)).1
      obtain rfl := h.queuedRecv i fd hmem
      exact hd.owns i halive
  · rcases List.mem_append.mp hf with hf | hf
    · exact h.sentFirst f hf k fd offset length hreq hrel
    · obtain ⟨request, hmem, rfl⟩ := List.mem_map.mp hf
      obtain rfl : request = .send k fd offset length := hreq
      obtain ⟨hoff, hput, hin, -⟩ := h.queuedFirst k fd offset length hmem hrel
      obtain rfl := h.queuedSend k fd offset length hmem
      exact ⟨hoff, hput, hd.owns _ hin⟩

theorem Targets.step {a : WorkerAction} (h : w.Targets none) (ha : w.Awaited none)
    (hd : w.Descriptors) (hst : w.step a = some w') : w'.Targets none := by
  have ha' := ha.step hst
  obtain ⟨-, hstepped⟩ := stepped_of_step hst
  cases hstepped with
  | submit hloop => exact h.submit ha hd
  | collect =>
    exact h.congr rfl (fun _ hf => hf) h.data (fun _ => rfl) (fun _ => rfl) (fun _ => rfl) rfl rfl
  | dispatch hloop hcq hok => exact h.dispatch ha hd hcq hok
  | fault =>
    exact h.congr rfl (fun _ hf => hf) h.data (fun _ => rfl) (fun _ => rfl) (fun _ => rfl) rfl rfl
  | @completeAccept j res more target hj hroom hfds =>
    refine h.congr rfl (fun f hf => ?_) (fun i res' packet hmem => ?_) (fun _ => rfl) (fun _ => rfl)
      (fun _ => rfl) rfl rfl
    · cases more with
      | true => exact hf
      | false => exact List.mem_of_mem_eraseIdx hf
    · rcases List.mem_append.mp hmem with hmem | hmem
      · exact h.data i res' packet hmem
      · cases List.mem_singleton.mp hmem
  | @completeRecv j conn res fd packet target hj hroom hanswer =>
    refine h.congr rfl (fun f hf => List.mem_of_mem_eraseIdx hf)
      (fun i res' packet' hmem hres => ?_) (fun _ => rfl) (fun _ => rfl) (fun _ => rfl) rfl rfl
    rcases List.mem_append.mp hmem with hmem | hmem
    · exact h.data i res' packet' hmem hres
    · obtain ⟨rfl, rfl, -⟩ := Completion.recv.inj (List.mem_singleton.mp hmem)
      rw [← h.sentRecv _ (List.mem_of_getElem? hj) i fd rfl]
      exact hanswer.2.2 hres
  | @completeSend j k offset length res fd bytes target hj hroom hanswer =>
    -- the request is done with, so nothing else is outstanding for its coroutine
    have hpost : (w.post j (.send k res)).Targets none := by
      refine h.congr rfl (fun f hf => List.mem_of_mem_eraseIdx hf)
        (fun i res' packet' hmem hres => ?_) (fun _ => rfl) (fun _ => rfl) (fun _ => rfl) rfl rfl
      rcases List.mem_append.mp hmem with hmem | hmem
      · exact h.data i res' packet' hmem hres
      · cases List.mem_singleton.mp hmem
    have hgone : .send k ∉ w.sq.map Request.tag ∧
        .send k ∉ (w.kernel.eraseIdx j).map fun f => f.request.tag :=
      ha'.completed (c := .send k res) (List.mem_append_right _ (List.mem_singleton_self _))
        (by simp [Completion.tag])
    have hset := hpost.setSend k
      { w.sends k with put := (w.sends k).put + bytes.length } hgone rfl
    exact hset.congr rfl (fun _ hf => hf) hset.data (fun _ => rfl) (fun _ => rfl) (fun _ => rfl)
      rfl rfl

/-- **The invariant of every run**: who waits for what, which socket has which descriptor, and where
the requests go. -/
structure Wired (w : Worker) : Prop where
  awaited : w.Awaited none
  descriptors : w.Descriptors
  targets : w.Targets none

theorem Wired.step {a : WorkerAction} (h : w.Wired) (hst : w.step a = some w') : w'.Wired :=
  ⟨h.awaited.step hst, h.descriptors.step hst, h.targets.step h.awaited h.descriptors hst⟩

end Worker

theorem wired_init : Worker.Wired workerSystem.init where
  awaited := awaited_init
  descriptors := descriptors_init
  targets :=
    { queuedRecv := fun i fd hmem => by cases List.mem_singleton.mp hmem
      sentRecv := fun f hf => (List.not_mem_nil hf).elim
      data := fun i res packet hmem => (List.not_mem_nil hmem).elim
      sendPeer := fun k hk => absurd hk (Nat.not_lt_zero k)
      queuedSend := fun k fd offset length hmem => by cases List.mem_singleton.mp hmem
      queuedFirst := fun k fd offset length hmem => by cases List.mem_singleton.mp hmem
      sentFirst := fun f hf => (List.not_mem_nil hf).elim }

/-- **Every state of every run is wired.** -/
theorem wired_of_visited (run : List WorkerAction) : ∀ w ∈ workerSystem.visited run, w.Wired :=
  System.forall_visited Worker.Wired wired_init (fun _ _ _ hw hst => hw.step hst) run

end YServer
