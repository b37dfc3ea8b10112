import YServer.BaseNet.HttpStream
import YServer.BaseNet.Responses

/-!
# BaseNet/Exchange — is a connection served as if it were alone?

A worker turns between its connections at every suspension.  What concerns one TCP connection can be
read off the moves of a run:

    received    packets the kernel completes recvs on it with
    handed      packets dispatched to the parser of its handler
    exchanged   requests the parser returned, with what the handler sent for each

Whatever else goes on, no packet is lost, repeated or taken for another connection's, the requests
are those of one parser fed these packets in their order, and the responses started are those the
handler sent for them (`servedAlone_of_run`).  The packets are those the completions carry:
`BaseNet/BufferedExchange` reads them from the buffers.
-/

namespace YServer

open Machinery

/-- A run, as it concerns a worker. -/
abbrev WorkerMove := Move Worker WorkerAction

/-- The packet a completion carries, and whose. -/
def Completion.packet : Completion → Option (ℕ × Bytes)
  | .recv conn res packet => if 0 < res then some (conn, packet) else none
  | .accept _ _ | .send _ _ => none

namespace Worker

/-! ## What a move does for a connection -/

/-- The packet the next dispatch hands to a parser. -/
def nextPacket (w : Worker) : Option (ℕ × Bytes) :=
  match w.loop, w.cq with
  | .batch (_ + 1), c :: _ => c.packet
  | _, _ => none

/-- The request that parser then returns, if it does. -/
def nextRequest (w : Worker) : Option (ℕ × HttpRequest) :=
  w.nextPacket.bind fun (conn, packet) =>
    match parsePacket (w.conns conn).rawHttpRequest packet with
    | .ok (some request, _) => some (conn, request)
    | _ => none

/-- The handler is the one for a TCP connection. -/
def IsFor (w : Worker) (conn t : ℕ) : Prop := (w.conns conn).peer = some t

instance (w : Worker) (conn t : ℕ) : Decidable (w.IsFor conn t) :=
  inferInstanceAs (Decidable (_ = _))

/-- What a handler gets, if it is the one for the connection. -/
def only {α : Type*} (w : Worker) (t : ℕ) (x : ℕ × α) : Option α :=
  if w.IsFor x.1 t then some x.2 else none

/-- The packet a move receives on a TCP connection. -/
def received (t : ℕ) (m : WorkerMove) : Option Bytes :=
  match m.act with
  | .completeRecv j res packet =>
    (m.src.kernel[j]?).bind fun f => if f.target = some t ∧ 0 < res then some packet else none
  | _ => none

/-- The packet it hands to the parser of the connection's handler. -/
def handed (t : ℕ) (m : WorkerMove) : Option Bytes :=
  match m.act with
  | .dispatch _ => m.src.nextPacket.bind (m.src.only t)
  | _ => none

/-- The request it serves there, with what the handler sends. -/
def exchanged (t : ℕ) (m : WorkerMove) : Option (HttpRequest × List Bytes) :=
  match m.act with
  | .dispatch replies => (m.src.nextRequest.bind (m.src.only t)).map (·, replies)
  | _ => none

/-- The packets that wait in the completion queue. -/
def waiting (w : Worker) (t : ℕ) : List Bytes := w.cq.filterMap fun c => c.packet.bind (w.only t)

/-- The messages of the responses started for a TCP connection. -/
def sentTo (w : Worker) (t : ℕ) : List Bytes := (w.responses t).map fun k => (w.sends k).message

/-- **A connection is served as if it were alone**, by one parser and a handler that answers each of
its requests. -/
structure ServedAlone (moves : List WorkerMove) (w : Worker) (t : ℕ) : Prop where
  /-- No packet is lost, repeated or out of order. -/
  packets : moves.filterMap (received t) = moves.filterMap (handed t) ++ w.waiting t
  /-- The requests are those of one parser, which keeps what it does… -/
  parsed : ∃ raw, feed [] (moves.filterMap (handed t))
    = .ok ((moves.filterMap (exchanged t)).map Prod.fst, raw) ∧
      ∀ conn, w.IsFor conn t → (w.conns conn).rawHttpRequest = raw
  /-- …and what is sent are the answers to them. -/
  answered : w.sentTo t = (moves.filterMap (exchanged t)).flatMap Prod.snd

variable {w w' : Worker}

/-! ## What is sent -/

section SentTo

variable {t : ℕ}

/-- Responses to the same peers with the same messages. -/
theorem sentTo_congr (hcount : w'.sendCount = w.sendCount)
    (hpeer : ∀ k < w.sendCount, (w'.conns (w'.sends k).conn).peer = (w.conns (w.sends k).conn).peer)
    (hmessage : ∀ k, (w'.sends k).message = (w.sends k).message) : w'.sentTo t = w.sentTo t := by
  have hresponses : w'.responses t = w.responses t := by
    rw [responses, responses, hcount]
    exact List.filter_congr fun k hk => by rw [hpeer k (List.mem_range.mp hk)]
  rw [sentTo, sentTo, hresponses]
  exact List.map_congr_left fun k _ => hmessage k

theorem sentTo_of_eq (hcount : w'.sendCount = w.sendCount) (hsends : w'.sends = w.sends)
    (hpeer : ∀ i, (w'.conns i).peer = (w.conns i).peer) : w'.sentTo t = w.sentTo t :=
  sentTo_congr hcount (fun _ _ => by rw [hsends, hpeer]) fun _ => by rw [hsends]

/-- A send coroutine's other variables do not matter. -/
theorem sentTo_setSend (k : ℕ) (task : SendTask) (hconn : task.conn = (w.sends k).conn)
    (hmessage : task.message = (w.sends k).message) : (w.setSend k task).sentTo t = w.sentTo t := by
  refine sentTo_congr rfl (fun j _ => ?_) fun j => ?_ <;>
    rcases eq_or_ne j k with rfl | hne <;> simp [setSend, *]

theorem sentTo_prepare {request : Request} (h : w.prepare request = .ok w') :
    w'.sentTo t = w.sentTo t := by
  rw [prepare_eq_ok h]
  exact sentTo_of_eq rfl rfl fun _ => rfl

/-- **A new response comes last.** -/
theorem sentTo_startSend (task : SendTask) : (w.startSend task).sentTo t
    = w.sentTo t ++ if w.IsFor task.conn t then [task.message] else [] := by
  have hself : (w.startSend task).sends w.sendCount = task := Function.update_self _ _ _
  have hother : ∀ k ∈ List.range w.sendCount, (w.startSend task).sends k = w.sends k := fun k hk =>
    Function.update_of_ne (List.mem_range.mp hk).ne _ _
  have hold : (List.range w.sendCount).filter
      (fun k => ((w.startSend task).conns ((w.startSend task).sends k).conn).peer = some t)
        = w.responses t := List.filter_congr fun k hk => by
    rw [hother k hk]
    rfl
  have hmessages : (w.responses t).map (fun k => ((w.startSend task).sends k).message)
      = w.sentTo t := List.map_congr_left fun k hk => by
    rw [hother k (List.mem_of_mem_filter hk)]
  have hnew : (w.startSend task).responses t
      = w.responses t ++ if w.IsFor task.conn t then [w.sendCount] else [] := by
    change (List.range (w.sendCount + 1)).filter _ = _
    rw [List.range_succ, List.filter_append, hold, List.filter_singleton, hself]
    refine congrArg (w.responses t ++ ·) ?_
    by_cases hfor : w.IsFor task.conn t
    · rw [if_pos hfor]
      exact congrArg (bif · then [w.sendCount] else []) (decide_eq_true hfor)
    · rw [if_neg hfor]
      exact congrArg (bif · then [w.sendCount] else []) (decide_eq_false hfor)
  rw [sentTo, hnew, List.map_append, hmessages]
  by_cases hfor : w.IsFor task.conn t
  · simp only [hfor, if_true, List.map_singleton, hself]
  · simp only [hfor, if_false, List.map_nil]

/-- **What a handler sends goes to its own connection, in its order** — by induction on the
messages. -/
theorem sentTo_serve {conn : ℕ} {replies : List Bytes} (h : w.serve conn replies = .ok w') :
    w'.sentTo t = w.sentTo t ++ if w.IsFor conn t then replies else [] := by
  induction replies generalizing w with
  | nil => simp [← Except.ok.inj h]
  | cons message replies ih =>
    obtain ⟨w₁, hsend, hrest⟩ := bind_eq_ok h
    have hfirst : w₁.sentTo t = w.sentTo t ++ (if w.IsFor conn t then [message] else []) ∧
        w₁.conns = w.conns := by
      rcases send_eq_ok hsend with ⟨-, rfl⟩ | ⟨rfl, rfl⟩
      · exact ⟨(sentTo_of_eq rfl rfl fun _ => rfl).trans (sentTo_startSend _), rfl⟩
      · exact ⟨sentTo_startSend _, rfl⟩
    have hfor : w₁.IsFor conn t ↔ w.IsFor conn t := by rw [IsFor, IsFor, hfirst.2]
    rw [ih hrest, hfirst.1, List.append_assoc]
    by_cases hconn : w.IsFor conn t <;> simp [hconn, hfor]

end SentTo

/-! ## Histories with one more move -/

section Concat

variable {α β : Type*} {f : α → Option β} {a : α}

theorem filterMap_concat (f : α → Option β) (l : List α) (a : α) :
    (l ++ [a]).filterMap f = l.filterMap f ++ (f a).toList := by
  rw [List.filterMap_append]
  cases h : f a with
  | none => rw [List.filterMap_cons_none h]; rfl
  | some b => rw [List.filterMap_cons_some h]; rfl

theorem filterMap_concat_of_none (h : f a = none) (l : List α) :
    (l ++ [a]).filterMap f = l.filterMap f := by
  rw [filterMap_concat, h, Option.toList_none, List.append_nil]

end Concat

/-! ## What waits -/

section Waiting

variable {t : ℕ} {c : Completion} {cq : List Completion} {left : ℕ}

theorem only_congr {α : Type*} {conn : ℕ} {a : α} (h : w'.IsFor conn t ↔ w.IsFor conn t) :
    w'.only t (conn, a) = w.only t (conn, a) :=
  if_congr h rfl rfl

/-- The handlers of the packets that wait are for the same connections. -/
theorem waiting_congr (hcq : w'.cq = w.cq)
    (hfor : ∀ c ∈ w.cq, ∀ conn packet, c.packet = some (conn, packet) →
      (w'.IsFor conn t ↔ w.IsFor conn t)) : w'.waiting t = w.waiting t := by
  rw [waiting, waiting, hcq]
  refine List.filterMap_congr fun c hc => ?_
  rcases hpacket : c.packet with _ | ⟨conn, packet⟩
  · rfl
  · exact only_congr (hfor c hc conn packet hpacket)

/-- The next one to be handed on waits first. -/
theorem waiting_of_cons (hcq : w.cq = c :: cq) : w.waiting t
    = (c.packet.bind (w.only t)).toList ++ (w.cqeSeen cq left).waiting t := by
  rw [waiting, hcq]
  rcases h : c.packet.bind (w.only t) with _ | packet
  · exact List.filterMap_cons_none h
  · exact List.filterMap_cons_some h

/-- A completion that is posted waits last. -/
theorem waiting_post (j : ℕ) (c : Completion) :
    (w.post j c).waiting t = w.waiting t ++ (c.packet.bind (w.only t)).toList :=
  filterMap_concat (fun c : Completion => c.packet.bind (w.only t)) w.cq c

theorem tag_of_packet {conn : ℕ} {packet : Bytes} (h : c.packet = some (conn, packet)) :
    c.tag = .recv conn := by
  cases c with
  | accept | send => cases h
  | recv i res p =>
    obtain ⟨-, heq⟩ := Option.ite_none_right_eq_some.mp h
    rw [Completion.tag, (Prod.mk.inj (Option.some.inj heq)).1]

theorem nextPacket_of_cons (hloop : w.loop = .batch (left + 1)) (hcq : w.cq = c :: cq) :
    w.nextPacket = c.packet := by
  rw [nextPacket, hloop, hcq]

end Waiting

/-! ## The invariant -/

/-- **A connection is served alone**, and before it has a handler not at all. -/
structure Alone (moves : List WorkerMove) (w : Worker) (t : ℕ) : Prop where
  packets : moves.filterMap (received t) = moves.filterMap (handed t) ++ w.waiting t
  fresh : (∀ conn, ¬ w.IsFor conn t) →
    moves.filterMap (handed t) = [] ∧ moves.filterMap (exchanged t) = []
  parsed : ∀ conn, w.IsFor conn t → feed [] (moves.filterMap (handed t))
    = .ok ((moves.filterMap (exchanged t)).map Prod.fst, (w.conns conn).rawHttpRequest)
  answered : w.sentTo t = (moves.filterMap (exchanged t)).flatMap Prod.snd

section Alone

variable {t : ℕ} {moves : List WorkerMove} {m : WorkerMove}

theorem Alone.servedAlone (h : Alone moves w t) (hd : w.Descriptors) : ServedAlone moves w t where
  packets := h.packets
  parsed := by
    by_cases hfor : ∃ conn, w.IsFor conn t
    · obtain ⟨conn, hconn⟩ := hfor
      refine ⟨_, h.parsed conn hconn, fun conn' hconn' => ?_⟩
      rw [hd.distinct conn' conn t hconn' hconn]
    · obtain ⟨hhanded, hexchanged⟩ := h.fresh fun conn hconn => hfor ⟨conn, hconn⟩
      rw [hhanded, hexchanged]
      exact ⟨[], rfl, fun conn hconn => absurd ⟨conn, hconn⟩ hfor⟩
  answered := h.answered

/-- **A move that hands nothing to the connection's handler** may receive a packet for it, or be the
one that starts it. -/
theorem Alone.quiet (h : Alone moves w t) (hhanded : handed t m = none)
    (hexchanged : exchanged t m = none)
    (hpackets : moves.filterMap (received t) ++ (received t m).toList
      = moves.filterMap (handed t) ++ w'.waiting t)
    (hold : ∀ conn, w.IsFor conn t → w'.IsFor conn t)
    (hnew : ∀ conn, w'.IsFor conn t →
      (w.IsFor conn t ∧ (w'.conns conn).rawHttpRequest = (w.conns conn).rawHttpRequest) ∨
        (w'.conns conn).rawHttpRequest = [] ∧ ∀ i, ¬ w.IsFor i t)
    (hsent : w'.sentTo t = w.sentTo t) : Alone (moves ++ [m]) w' t where
  packets := by rwa [filterMap_concat, filterMap_concat_of_none hhanded]
  fresh hnone := by
    rw [filterMap_concat_of_none hhanded, filterMap_concat_of_none hexchanged]
    exact h.fresh fun conn hconn => hnone conn (hold conn hconn)
  parsed conn hconn := by
    rw [filterMap_concat_of_none hhanded, filterMap_concat_of_none hexchanged]
    rcases hnew conn hconn with ⟨hconn, hraw⟩ | ⟨hraw, hnone⟩
    · rw [hraw]
      exact h.parsed conn hconn
    · obtain ⟨hhanded, hexchanged⟩ := h.fresh hnone
      rw [hhanded, hexchanged, hraw]
      rfl
  answered := by
    rw [filterMap_concat_of_none hexchanged, hsent]
    exact h.answered

/-- What a run of packets and one more make of a connection. -/
theorem feed_concat {raw raw' last packet : Bytes} {packets : List Bytes}
    {requests : List HttpRequest} {request : Option HttpRequest}
    (hfeed : feed raw packets = .ok (requests, raw'))
    (hparse : parsePacket raw' packet = .ok (request, last)) :
    feed raw (packets ++ [packet]) = .ok (requests ++ request.toList, last) := by
  induction packets generalizing raw requests with
  | nil =>
    obtain ⟨rfl, rfl⟩ := Prod.mk.inj (Except.ok.inj hfeed)
    cases request with
    | none => exact feed_cons_none hparse rfl
    | some request => exact feed_cons_some hparse rfl
  | cons p packets ih =>
    obtain ⟨⟨first, raw₁⟩, hfirst, hrest⟩ := bind_eq_ok hfeed
    obtain ⟨⟨others, raw₂⟩, hothers, heq⟩ := bind_eq_ok hrest
    obtain ⟨rfl, rfl⟩ := Prod.mk.inj (Except.ok.inj heq)
    cases first with
    | none => exact feed_cons_none hfirst (ih hothers)
    | some first => exact feed_cons_some hfirst (ih hothers)

/-- **A packet for the connection's handler**: its parser goes on with it, and what the handler then
sends are the answers to the request it returns. -/
theorem Alone.hand {conn : ℕ} {packet raw : Bytes} {request : Option HttpRequest}
    {replies : List Bytes} (h : Alone moves w t) (hd : w.Descriptors) (hconn : w.IsFor conn t)
    (hparse : parsePacket (w.conns conn).rawHttpRequest packet = .ok (request, raw))
    (hhanded : handed t m = some packet) (hexchanged : exchanged t m = request.map (·, replies))
    (hpackets : (moves ++ [m]).filterMap (received t)
      = (moves ++ [m]).filterMap (handed t) ++ w'.waiting t)
    (hpeer : ∀ i, w'.IsFor i t ↔ w.IsFor i t) (hraw : (w'.conns conn).rawHttpRequest = raw)
    (hsent : w'.sentTo t = w.sentTo t ++ if request.isSome then replies else []) :
    Alone (moves ++ [m]) w' t where
  packets := hpackets
  fresh hnone := absurd ((hpeer conn).mpr hconn) (hnone conn)
  parsed i hi := by
    obtain rfl := hd.distinct i conn t ((hpeer i).mp hi) hconn
    rw [filterMap_concat, filterMap_concat, hhanded, hexchanged, List.map_append, hraw,
      Option.toList_some, feed_concat (h.parsed i hconn) hparse]
    cases request <;> rfl
  answered := by
    rw [hsent, h.answered, filterMap_concat, hexchanged, List.flatMap_append]
    cases request <;> simp

end Alone

/-! ## What a dispatch does to the other connections -/

/-- Nothing has happened to a connection. -/
structure Unmoved (t : ℕ) (w w' : Worker) : Prop where
  peer : ∀ i, (w'.conns i).peer = (w.conns i).peer
  raw : ∀ i, w.IsFor i t → (w'.conns i).rawHttpRequest = (w.conns i).rawHttpRequest
  sent : w'.sentTo t = w.sentTo t

section Unmoved

variable {t : ℕ} {w'' : Worker}

theorem Unmoved.isFor (h : Unmoved t w w') (i : ℕ) : w'.IsFor i t ↔ w.IsFor i t := by
  rw [IsFor, IsFor, h.peer]

theorem Unmoved.refl (t : ℕ) (w : Worker) : Unmoved t w w := ⟨fun _ => rfl, fun _ _ => rfl, rfl⟩

theorem Unmoved.trans (h : Unmoved t w w') (h' : Unmoved t w' w'') : Unmoved t w w'' where
  peer i := (h'.peer i).trans (h.peer i)
  raw i hi := (h'.raw i ((h.isFor i).mpr hi)).trans (h.raw i hi)
  sent := h'.sent.trans h.sent

theorem Unmoved.of_eq (hconns : w'.conns = w.conns) (hsent : w'.sentTo t = w.sentTo t) :
    Unmoved t w w' := ⟨fun _ => by rw [hconns], fun _ _ => by rw [hconns], hsent⟩

theorem Unmoved.prepare {request : Request} (h : w.prepare request = .ok w') : Unmoved t w w' :=
  .of_eq (by rw [prepare_eq_ok h]) (sentTo_prepare h)

theorem Unmoved.armed {more : Bool} (h : Armed w more w') : Unmoved t w w' := by
  cases h with
  | still => exact .refl t w
  | again h => exact .prepare h

theorem Unmoved.leave (conn : ℕ) : Unmoved t w (w.leave conn) where
  peer := peer_leave conn
  raw i _ := by rcases eq_or_ne i conn with rfl | hne <;> simp [Worker.leave, *]
  sent := sentTo_of_eq rfl rfl (peer_leave conn)

theorem Unmoved.setSend (k : ℕ) (task : SendTask) (hconn : task.conn = (w.sends k).conn)
    (hmessage : task.message = (w.sends k).message) : Unmoved t w (w.setSend k task) :=
  .of_eq rfl (sentTo_setSend k task hconn hmessage)

theorem sentTo_setRaw (conn : ℕ) (raw : Bytes) : (w.setRaw conn raw).sentTo t = w.sentTo t :=
  sentTo_of_eq rfl rfl (peer_setRaw conn raw)

/-- A handler for another connection keeps other bytes… -/
theorem Unmoved.setRaw {conn : ℕ} (raw : Bytes) (hconn : ¬ w.IsFor conn t) :
    Unmoved t w (w.setRaw conn raw) where
  peer := peer_setRaw conn raw
  raw i hi := by
    have hne : i ≠ conn := fun heq => hconn (heq ▸ hi)
    simp [Worker.setRaw, hne]
  sent := sentTo_setRaw conn raw

/-- …and sends its answers there. -/
theorem Unmoved.serve {conn : ℕ} {replies : List Bytes} (h : w.serve conn replies = .ok w')
    (hconn : ¬ w.IsFor conn t) : Unmoved t w w' := by
  refine .of_eq (conns_of_serve h) ?_
  rw [sentTo_serve h, if_neg hconn, List.append_nil]

end Unmoved

/-! ## Dispatches -/

section Dispatch

variable {t : ℕ} {moves : List WorkerMove} {replies : List Bytes} {c : Completion}
  {cq : List Completion} {left : ℕ}

theorem handed_dispatch (hloop : w.loop = .batch (left + 1)) (hcq : w.cq = c :: cq) :
    handed t ⟨w, .dispatch replies, w'⟩ = c.packet.bind (w.only t) := by
  rw [handed, nextPacket_of_cons hloop hcq]

theorem exchanged_dispatch_of_packet {conn : ℕ} {packet : Bytes}
    (hloop : w.loop = .batch (left + 1)) (hcq : w.cq = c :: cq)
    (hpacket : c.packet = some (conn, packet)) (hconn : w.IsFor conn t)
    {request : Option HttpRequest} {raw : Bytes}
    (hparse : parsePacket (w.conns conn).rawHttpRequest packet = .ok (request, raw)) :
    exchanged t ⟨w, .dispatch replies, w'⟩ = request.map (·, replies) := by
  simp only [exchanged, nextRequest, nextPacket_of_cons hloop hcq, hpacket, Option.bind_some,
    hparse]
  cases request with
  | none => rfl
  | some request => simp [only, hconn]

/-- Where nothing is handed on, nothing is served. -/
theorem exchanged_dispatch_of_none (hloop : w.loop = .batch (left + 1)) (hcq : w.cq = c :: cq)
    (hnone : c.packet.bind (w.only t) = none) :
    exchanged t ⟨w, .dispatch replies, w'⟩ = none := by
  simp only [exchanged, nextRequest, nextPacket_of_cons hloop hcq]
  rcases hpacket : c.packet with _ | ⟨conn, packet⟩
  · rfl
  · have hconn : ¬ w.IsFor conn t := fun hconn => by simp [hpacket, only, hconn] at hnone
    rw [Option.bind_some]
    rcases parsePacket (w.conns conn).rawHttpRequest packet with _ | ⟨_ | request, raw⟩
    · rfl
    · rfl
    · simp [only, hconn]

/-- What is handed on no longer waits. -/
theorem Alone.packets_dispatch (h : Alone moves w t) (replies : List Bytes)
    (hloop : w.loop = .batch (left + 1)) (hcq : w.cq = c :: cq)
    (hwaiting : w'.waiting t = (w.cqeSeen cq left).waiting t) :
    (moves ++ [(⟨w, .dispatch replies, w'⟩ : WorkerMove)]).filterMap (received t)
      = (moves ++ [(⟨w, .dispatch replies, w'⟩ : WorkerMove)]).filterMap (handed t)
        ++ w'.waiting t := by
  rw [filterMap_concat_of_none rfl, filterMap_concat, handed_dispatch hloop hcq, h.packets,
    waiting_of_cons hcq, hwaiting, List.append_assoc]

/-- **A dispatch that hands nothing to the connection's handler.** -/
theorem Alone.dispatch_quiet (h : Alone moves w t) (hloop : w.loop = .batch (left + 1))
    (hcq : w.cq = c :: cq) (hnone : c.packet.bind (w.only t) = none)
    (hwaiting : w'.waiting t = (w.cqeSeen cq left).waiting t)
    (hold : ∀ conn, w.IsFor conn t → w'.IsFor conn t)
    (hnew : ∀ conn, w'.IsFor conn t →
      (w.IsFor conn t ∧ (w'.conns conn).rawHttpRequest = (w.conns conn).rawHttpRequest) ∨
        (w'.conns conn).rawHttpRequest = [] ∧ ∀ i, ¬ w.IsFor i t)
    (hsent : w'.sentTo t = w.sentTo t) :
    Alone (moves ++ [⟨w, .dispatch replies, w'⟩]) w' t := by
  have hhanded : handed t ⟨w, .dispatch replies, w'⟩ = none :=
    (handed_dispatch hloop hcq).trans hnone
  refine h.quiet hhanded (exchanged_dispatch_of_none hloop hcq hnone) ?_ hold hnew hsent
  have hpackets := h.packets_dispatch replies hloop hcq hwaiting
  rwa [filterMap_concat, filterMap_concat_of_none hhanded] at hpackets

/-- …because nothing happens to the connection. -/
theorem Alone.dispatch_unmoved (h : Alone moves w t) (hloop : w.loop = .batch (left + 1))
    (hcq : w.cq = c :: cq) (hnone : c.packet.bind (w.only t) = none) (hcq' : w'.cq = cq)
    (hun : Unmoved t (w.cqeSeen cq left) w') :
    Alone (moves ++ [⟨w, .dispatch replies, w'⟩]) w' t :=
  h.dispatch_quiet hloop hcq hnone (waiting_congr hcq' fun _ _ i _ _ => hun.isFor i)
    (fun i => (hun.isFor i).mpr)
    (fun i hi => Or.inl ⟨(hun.isFor i).mp hi, hun.raw i ((hun.isFor i).mp hi)⟩) hun.sent

/-- **A packet goes to its handler's parser**, and to nobody else's. -/
theorem Alone.dispatch_packet {conn : ℕ} {res : ℤ} {packet raw : Bytes}
    {request : Option HttpRequest} (h : Alone moves w t) (hd : w.Descriptors)
    (hloop : w.loop = .batch (left + 1)) (hcq : w.cq = .recv conn res packet :: cq) (hpos : 0 < res)
    (hparse : parsePacket (w.conns conn).rawHttpRequest packet = .ok (request, raw))
    (hcq' : w'.cq = cq) (hconns : w'.conns = (w.setRaw conn raw).conns)
    (hsent : w'.sentTo t
      = w.sentTo t ++ if w.IsFor conn t ∧ request.isSome then replies else []) :
    Alone (moves ++ [⟨w, .dispatch replies, w'⟩]) w' t := by
  have hpacket : (Completion.recv conn res packet).packet = some (conn, packet) := if_pos hpos
  have hfor : ∀ i, w'.IsFor i t ↔ w.IsFor i t := fun i => by
    rw [IsFor, hconns, peer_setRaw, IsFor]
  have hwaiting : w'.waiting t = (w.cqeSeen cq left).waiting t :=
    waiting_congr hcq' fun _ _ i _ _ => hfor i
  by_cases hconn : w.IsFor conn t
  · refine h.hand hd hconn hparse ?_ (exchanged_dispatch_of_packet hloop hcq hpacket hconn hparse)
      (h.packets_dispatch replies hloop hcq hwaiting) hfor ?_ ?_
    · rw [handed_dispatch hloop hcq, hpacket]
      exact if_pos hconn
    · simp [hconns, Worker.setRaw]
    · rw [hsent]
      simp [hconn]
  · refine h.dispatch_quiet hloop hcq ?_ hwaiting (fun i => (hfor i).mpr) (fun i hi => ?_) ?_
    · rw [hpacket]
      exact if_neg hconn
    · have hne : i ≠ conn := fun heq => hconn (heq ▸ (hfor i).mp hi)
      refine Or.inl ⟨(hfor i).mp hi, ?_⟩
      simp [hconns, Worker.setRaw, hne]
    · rw [hsent]
      simp [hconn]

/-- **A new handler** has been handed nothing, for its connection is new. -/
theorem Alone.dispatch_connect {res : ℤ} {more : Bool} {w₁ : Worker} (h : Alone moves w t)
    (hw : w.Wired) (hloop : w.loop = .batch (left + 1)) (hcq : w.cq = .accept res more :: cq)
    (harm : Armed (w.cqeSeen cq left) more w₁) (hrecv : (w₁.connect res).recv w₁.connCount = .ok w')
    (hcq' : w'.cq = cq) : Alone (moves ++ [⟨w, .dispatch replies, w'⟩]) w' t := by
  have hconns : w'.conns = ((w.cqeSeen cq left).connect res).conns := by
    rw [prepare_eq_ok hrecv]
    cases harm with
    | still => rfl
    | again hok => rw [prepare_eq_ok hok]; rfl
  have hsends : w'.sends = w.sends ∧ w'.sendCount = w.sendCount := by
    rw [prepare_eq_ok hrecv]
    cases harm with
    | still => exact ⟨rfl, rfl⟩
    | again hok => rw [prepare_eq_ok hok]; exact ⟨rfl, rfl⟩
  have hother : ∀ i ≠ w.connCount, w'.conns i = w.conns i := fun i hi => by
    rw [hconns]
    exact conns_connect_of_ne hi
  have hself : w'.conns w.connCount = ⟨res, w.fds res, [], true⟩ := by
    rw [hconns]
    exact conns_connect_self
  have hfor : ∀ i ≠ w.connCount, (w'.IsFor i t ↔ w.IsFor i t) := fun i hi => by
    rw [IsFor, hother i hi, IsFor]
  refine h.dispatch_quiet hloop hcq rfl ?_ (fun i hi => ?_) (fun i hi => ?_) ?_
  · -- what waits is for handlers there are
    refine waiting_congr hcq' fun c hc i packet hpacket => hfor i (Nat.ne_of_lt ?_)
    have hmem : c ∈ w.cq := hcq ▸ List.mem_cons_of_mem _ hc
    exact hw.awaited.lt_connCount (tag_of_packet hpacket ▸ tag_mem_of_cq hmem)
  · refine (hfor i fun heq => ?_).mpr hi
    cases (hw.descriptors.freshPeer i heq.ge).symm.trans hi
  · rcases eq_or_ne i w.connCount with rfl | hne
    · refine Or.inr ⟨by rw [hself], fun j hj => ?_⟩
      refine (hw.descriptors.unclaimed hcq left).newPeer (hw.descriptors.cqeSeen hcq left) j t hj ?_
      rw [IsFor, hself] at hi
      exact hi
    · exact Or.inl ⟨(hfor i hne).mp hi, by rw [hother i hne]⟩
  · refine sentTo_congr hsends.2 (fun k hk => ?_) fun k => by rw [hsends.1]
    rw [hsends.1, hother _ (hw.targets.conn_lt hw.descriptors k hk).ne]

/-- **A dispatch serves a connection alone.** -/
theorem Alone.dispatch (h : Alone moves w t) (hw : w.Wired) (hloop : w.loop = .batch (left + 1))
    (hcq : w.cq = c :: cq) (hok : (w.cqeSeen cq left).dispatch replies c = .ok w') :
    Alone (moves ++ [⟨w, .dispatch replies, w'⟩]) w' t := by
  have hcq' : w'.cq = cq := (SameKernel.dispatch hok).cq
  have hseen : (w.cqeSeen cq left).sentTo t = w.sentTo t := sentTo_of_eq rfl rfl fun _ => rfl
  cases (resumed_of_dispatch hok).2 with
  | acceptDestroyed =>
    exact h.dispatch_unmoved hloop hcq rfl hcq' (.of_eq rfl (sentTo_of_eq rfl rfl fun _ => rfl))
  | acceptFailed harm => exact h.dispatch_unmoved hloop hcq rfl hcq' (.armed harm)
  | connected harm hres hrecv => exact h.dispatch_connect hw hloop hcq harm hrecv hcq'
  | @left conn res packet hres =>
    refine h.dispatch_unmoved hloop hcq ?_ hcq' (.leave conn)
    have hnot : ¬ 0 < res := by rcases hres with rfl | rfl <;> decide
    rw [Completion.packet, if_neg hnot, Option.bind_none]
  | kept hpos hparse hrecv =>
    refine h.dispatch_packet hw.descriptors hloop hcq hpos hparse hcq' ?_ ?_
    · rw [prepare_eq_ok hrecv]
      rfl
    · rw [sentTo_prepare hrecv, sentTo_setRaw, hseen]
      simp
  | @served conn res packet raw request w₁ w' hpos hparse hserve hrecv =>
    have hfor : ((w.cqeSeen cq left).setRaw conn raw).IsFor conn t ↔ w.IsFor conn t := by
      rw [IsFor, peer_setRaw]
      rfl
    refine h.dispatch_packet hw.descriptors hloop hcq hpos hparse hcq' ?_ ?_
    · rw [prepare_eq_ok hrecv]
      exact (conns_of_serve hserve).trans rfl
    · rw [sentTo_prepare hrecv, sentTo_serve hserve, sentTo_setRaw, hseen]
      simp [hfor]
  | sendDestroyed =>
    exact h.dispatch_unmoved hloop hcq rfl hcq' (.setSend _ _ rfl rfl)
  | sendEnded =>
    exact h.dispatch_unmoved hloop hcq rfl hcq' (.setSend _ _ rfl rfl)
  | sendAgain htime hresumed hok =>
    refine h.dispatch_unmoved hloop hcq rfl hcq' (Unmoved.trans ?_ (.prepare hok))
    exact .setSend _ _ rfl rfl

end Dispatch

/-! ## Whole runs -/

section Steps

variable {t : ℕ} {moves : List WorkerMove}

/-- A step that hands nothing on, receives nothing and leaves handlers and responses alone. -/
theorem Alone.idle {a : WorkerAction} (h : Alone moves w t) (ha : ∀ replies, a ≠ .dispatch replies)
    (hreceived : received t ⟨w, a, w'⟩ = none) (hwaiting : w'.waiting t = w.waiting t)
    (hun : Unmoved t w w') : Alone (moves ++ [⟨w, a, w'⟩]) w' t := by
  have hquiet : handed t ⟨w, a, w'⟩ = none ∧ exchanged t ⟨w, a, w'⟩ = none := by
    cases a with
    | dispatch replies => exact absurd rfl (ha replies)
    | _ => exact ⟨rfl, rfl⟩
  refine h.quiet hquiet.1 hquiet.2 ?_ (fun i => (hun.isFor i).mpr)
    (fun i hi => Or.inl ⟨(hun.isFor i).mp hi, hun.raw i ((hun.isFor i).mp hi)⟩) hun.sent
  rw [hreceived, hwaiting, Option.toList_none, List.append_nil]
  exact h.packets

/-- **The kernel receives a packet on the connection the recv was submitted for**, and it waits for
that connection's handler. -/
theorem Alone.completeRecv {j conn : ℕ} {res fd : ℤ} {packet : Bytes} {target : Option ℕ}
    (h : Alone moves w t) (hw : w.Wired) (hj : w.kernel[j]? = some ⟨.recv conn fd, target⟩) :
    Alone (moves ++ [⟨w, .completeRecv j res packet, w.post j (.recv conn res packet)⟩])
      (w.post j (.recv conn res packet)) t := by
  have htarget : target = (w.conns conn).peer :=
    hw.targets.sentRecv _ (List.mem_of_getElem? hj) conn fd rfl
  have hreceived : received t ⟨w, .completeRecv j res packet, w.post j (.recv conn res packet)⟩
      = (Completion.recv conn res packet).packet.bind (w.only t) := by
    simp only [received, hj, htarget, Completion.packet, Option.bind_some]
    by_cases hpos : 0 < res
    · by_cases hfor : w.IsFor conn t
      · simp [hpos, only, hfor, show (w.conns conn).peer = some t from hfor]
      · simp [hpos, only, hfor, show (w.conns conn).peer ≠ some t from hfor]
    · simp [hpos]
  refine h.quiet rfl rfl ?_ (fun _ => id) (fun i hi => Or.inl ⟨hi, rfl⟩)
    (sentTo_of_eq rfl rfl fun _ => rfl)
  rw [hreceived, waiting_post, h.packets, List.append_assoc]

theorem Alone.step {a : WorkerAction} (h : Alone moves w t) (hw : w.Wired)
    (hst : w.step a = some w') (hfault : w'.fault = none) :
    Alone (moves ++ [⟨w, a, w'⟩]) w' t := by
  obtain ⟨-, hstepped⟩ := stepped_of_step hst
  have hposted : ∀ c : Completion, c.packet = none → ∀ v : Worker, v.cq = w.cq ++ [c] →
      v.conns = w.conns → v.waiting t = w.waiting t := by
    intro c hc v hcq hconns
    rw [waiting, hcq, filterMap_concat_of_none (by rw [hc, Option.bind_none])]
    refine List.filterMap_congr fun c _ => congrArg (c.packet.bind ·) (funext fun x => ?_)
    exact only_congr (by rw [IsFor, hconns, IsFor])
  cases hstepped with
  | submit =>
    exact h.idle (by simp) rfl rfl (.of_eq rfl (sentTo_of_eq rfl rfl fun _ => rfl))
  | collect =>
    exact h.idle (by simp) rfl rfl (.of_eq rfl (sentTo_of_eq rfl rfl fun _ => rfl))
  | dispatch hloop hcq hok => exact h.dispatch hw hloop hcq hok
  | fault => cases hfault
  | completeAccept =>
    exact h.idle (by simp) rfl (hposted _ rfl _ rfl rfl)
      (.of_eq rfl (sentTo_of_eq rfl rfl fun _ => rfl))
  | completeRecv hj => exact h.completeRecv hw hj
  | @completeSend j k offset length res fd bytes target =>
    refine h.idle (by simp) rfl (hposted _ rfl _ rfl rfl) (.of_eq rfl ?_)
    exact (sentTo_of_eq rfl rfl fun _ => rfl).trans (sentTo_setSend k
      { w.sends k with put := (w.sends k).put + bytes.length } rfl rfl)

end Steps

end Worker

theorem alone_init (t : ℕ) : Worker.Alone [] workerSystem.init t where
  packets := rfl
  fresh _ := ⟨rfl, rfl⟩
  parsed _ h := by cases h
  answered := rfl

theorem alone_of_run {run : List WorkerAction} {w : Worker} (hrun : workerSystem.run run = some w)
    (hfault : w.fault = none) (t : ℕ) :
    w.Wired ∧ Worker.Alone (workerSystem.moves run) w t := by
  refine (System.history_of_run (C := fun _ _ => True)
    (fun moves w => w.Wired ∧ (w.fault = none → Worker.Alone moves w t))
    ⟨wired_init, fun _ => alone_init t⟩ ?_ hrun fun _ _ => trivial).imp_right fun h => h hfault
  rintro moves w a w' ⟨hw, h⟩ hst -
  obtain ⟨hfault, -⟩ := Worker.stepped_of_step hst
  exact ⟨hw.step hst, fun hfault' => (h hfault).step hw hst hfault'⟩

/-- **Every connection is served as if it were alone**, in every run without a fault, whatever the
kernel, the other connections and the handlers do, from the packets the completions carry. -/
theorem servedAlone_of_run {run : List WorkerAction} {w : Worker}
    (hrun : workerSystem.run run = some w) (hfault : w.fault = none) (t : ℕ) :
    Worker.ServedAlone (workerSystem.moves run) w t := by
  obtain ⟨hw, halone⟩ := alone_of_run hrun hfault t
  exact halone.servedAlone hw.descriptors

end YServer
