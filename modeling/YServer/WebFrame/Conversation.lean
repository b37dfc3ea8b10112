import YServer.BaseNet.BufferedExchange
import YServer.BaseNet.HttpRequests
import YServer.WebFrame.Client
import YServer.WebFrame.Router

/-!
# WebFrame/Conversation — from the requests a client writes to the responses it reads

    client ─ requests ─▸ packets ─▸ buffers ─▸ parser ─▸ routes ─▸ handlers ─▸ wire ─▸ client

Each arrow has its own condition: packets that end with the requests, buffers that nobody holds when
something is received into them, values without `':'` for the parser, methods without `'-'` for the
routes, one framed reply for the handlers, responses put on the wire in turn.  Under all of them,
and without a fault, a connection is a conversation: whatever else the worker does, what the client
has read is the beginning of the answers to what it wrote, and all of them once everything is handed
on and out (`conversation_of_bufferedRun`).
-/

namespace YServer

open Machinery

/-! ## Applications -/

/-- A handler, as the calls it makes on its context. -/
abbrev HandlerFunc := Context → List ContextCall

/-- What is sent for a request once the router has done with its context. -/
def Handled.replies : Handled HandlerFunc → List Reply
  | .invoked handler ctx => ((handler ctx).foldl Context.call ctx).sent
  | .answered ctx => ctx.sent

/-- `ServeHTTP` of an engine with this router. -/
def Router.serveHTTP (router : Router HandlerFunc) (request : HttpRequest) : List Reply :=
  (router.handle (Context.new request HttpResponse.new)).replies

/-- What the routes say should be sent: the reply of the last one for method and path, or a 404. -/
def exactReplies (routes : List (Route HandlerFunc)) (request : HttpRequest) : List Reply :=
  (exactDispatch routes (Context.new request HttpResponse.new)).replies

/-- **A handler frames what it sends**, whatever the request: it replies at most once, behind plain
headers. -/
def Route.Framed (r : Route HandlerFunc) : Prop :=
  ∀ request, ∀ m ∈ (contextSystem request).moves
    (r.handler (Context.new request HttpResponse.new)), m.src.Framing m.act

section Framed

variable {routes : List (Route HandlerFunc)}

/-- A handler's calls are all made. -/
theorem run_contextSystem (request : HttpRequest) (calls : List ContextCall) :
    (contextSystem request).run calls
      = some (calls.foldl Context.call (Context.new request HttpResponse.new)) := by
  have key : ∀ (calls : List ContextCall) (ctx : Context),
      (contextSystem request).runFrom ctx calls = some (calls.foldl Context.call ctx) := by
    intro calls
    induction calls with
    | nil => exact fun ctx => rfl
    | cons c calls ih => exact fun ctx => ih (ctx.call c)
  exact key calls _

/-- **What a framed handler sends is well framed.** -/
theorem Route.Framed.wellFramed {r : Route HandlerFunc} (h : r.Framed) (request : HttpRequest) :
    ∀ reply ∈ ((r.handler (Context.new request HttpResponse.new)).foldl Context.call
      (Context.new request HttpResponse.new)).sent, reply.WellFramed := by
  refine (System.forall_visited_of_moves Context.Sound (Context.sound_new request)
    (fun ctx c ctx' hctx hstep hframing => ?_) (h request) _
    (System.mem_visited_of_run _ (run_contextSystem request _))).framed
  obtain rfl := Option.some.inj hstep
  exact hctx.call hframing

/-- The 404 is, too. -/
theorem wellFramed_notFound (request : HttpRequest) (body : Bytes) :
    ∀ reply ∈ ((Context.new request HttpResponse.new).string 404 body).sent, reply.WellFramed :=
  ((Context.sound_new request).call (c := .string 404 body)
    ⟨rfl, fun _ h => absurd h List.not_mem_nil⟩).framed

theorem wellFramed_serveHTTP (h : ∀ r ∈ routes, r.Framed) (request : HttpRequest) :
    ∀ reply ∈ (Router.registered routes).serveHTTP request, reply.WellFramed := by
  rw [Router.serveHTTP, handle_registered]
  cases hlast : lastRoute (·.IsFoundBy (Context.new request HttpResponse.new)) routes with
  | none => exact wellFramed_notFound request _
  | some r =>
    have hmem : r ∈ routes := (List.mem_filter.mp (List.mem_of_getLast? hlast)).1
    exact (h r hmem).wellFramed request

/-- Requests whose method holds no `'-'` get what the routes say. -/
theorem serveHTTP_eq_exactReplies (h : ∀ r ∈ routes, dash ∉ r.method) {request : HttpRequest}
    (hrequest : dash ∉ request.method) :
    (Router.registered routes).serveHTTP request = exactReplies routes request := by
  rw [Router.serveHTTP, exactReplies, handle_registered_of_notMem hrequest h]

theorem flatMap_serveHTTP (h : ∀ r ∈ routes, dash ∉ r.method) {written : List WrittenRequest}
    (hwritten : ∀ r ∈ written, dash ∉ r.method.text) :
    (written.map WrittenRequest.request).flatMap (Router.registered routes).serveHTTP
      = written.flatMap fun r => exactReplies routes r.request := by
  rw [List.flatMap_map]
  exact List.flatMap_congr fun r hr => serveHTTP_eq_exactReplies h (hwritten r hr)

end Framed

namespace Worker

/-! ## The handlers of a worker -/

/-- **The handler that gets the next request answers it as the application does.** -/
def Answers (app : HttpRequest → List Reply) (w : Worker) : WorkerAction → Prop
  | .dispatch replies => ∀ x ∈ w.nextRequest, replies = (app x.2).map Reply.message
  | _ => True

instance (app : HttpRequest → List Reply) (w : Worker) :
    (a : WorkerAction) → Decidable (w.Answers app a)
  | .dispatch _ => inferInstanceAs (Decidable (∀ x ∈ _, _))
  | .submit | .collect | .completeAccept _ _ _ | .completeRecv _ _ _ | .completeSend _ _ _ =>
    isTrue trivial

variable {w : Worker} {t : ℕ} {app : HttpRequest → List Reply} {moves : List WorkerMove}

/-- What is exchanged on a connection are requests with their answers. -/
theorem replies_of_exchanged {m : WorkerMove} (h : m.src.Answers app m.act)
    {x : HttpRequest × List Bytes} (hx : exchanged t m = some x) :
    x.2 = (app x.1).map Reply.message := by
  obtain ⟨src, act, dst⟩ := m
  cases act with
  | dispatch replies =>
    obtain ⟨request, hrequest, rfl⟩ := Option.map_eq_some_iff.mp hx
    obtain ⟨⟨conn, request'⟩, hnext, honly⟩ := Option.bind_eq_some_iff.mp hrequest
    obtain ⟨-, heq⟩ := Option.ite_none_right_eq_some.mp honly
    obtain rfl : request' = request := Option.some.inj heq
    exact h _ hnext
  | _ => cases hx

theorem flatMap_exchanged (h : ∀ m ∈ moves, m.src.Answers app m.act) :
    (moves.filterMap (exchanged t)).flatMap Prod.snd
      = (((moves.filterMap (exchanged t)).map Prod.fst).flatMap app).map Reply.message := by
  have hall : ∀ x ∈ moves.filterMap (exchanged t), x.2 = (app x.1).map Reply.message := by
    intro x hx
    obtain ⟨m, hm, hx⟩ := List.mem_filterMap.mp hx
    exact replies_of_exchanged (h m hm) hx
  rw [List.map_flatMap, List.flatMap_map]
  exact List.flatMap_congr hall

/-! ## What a client reads -/

/-- All of a response is on the wire. -/
def IsOut (w : Worker) (k : ℕ) : Prop := (w.sends k).message.length ≤ (w.sends k).put

instance (w : Worker) (k : ℕ) : Decidable (w.IsOut k) := inferInstanceAs (Decidable (_ ≤ _))

/-- How many responses are, before the first one that is not. -/
def outCount (w : Worker) (t : ℕ) : ℕ := ((w.responses t).takeWhile fun k => w.IsOut k).length

/-- **A client has read exactly the responses that are out.** -/
theorem Sent.readAll_wire (h : w.Sent) {replies : List Reply}
    (hsent : w.sentTo t = replies.map Reply.message)
    (hframed : ∀ reply ∈ replies, reply.WellFramed) :
    (responseFraming.readAll (w.wire t)).1 = (replies.take (w.outCount t)).map Reply.received := by
  have hvalues : (w.responses t).map (fun k => receivedOf (w.sends k).message)
      = replies.map Reply.received := by
    have hmap := congrArg (List.map receivedOf) hsent
    rwa [sentTo, List.map_map, List.map_map] at hmap
  have hwrites : ∀ k ∈ w.responses t,
      responseFraming.Writes (w.sends k).message (receivedOf (w.sends k).message) := by
    intro k hk
    have hmem : (w.sends k).message ∈ w.sentTo t := List.mem_map_of_mem hk
    rw [hsent] at hmem
    obtain ⟨reply, hreply, heq⟩ := List.mem_map.mp hmem
    rw [← heq]
    exact (hframed reply hreply).writes.1
  rw [h.wire t, Framing.readAll_delivered hwrites (h.oneByOne t), List.map_take, ← hvalues,
    ← List.map_take]
  exact congrArg _ (List.prefix_iff_eq_take.mp (List.takeWhile_prefix _))

/-- Once all of them are out, it is all of them. -/
theorem length_le_outCount (h : ∀ k ∈ w.responses t, w.IsOut k) {replies : List Reply}
    (hsent : w.sentTo t = replies.map Reply.message) : replies.length ≤ w.outCount t := by
  have hall : (w.responses t).takeWhile (fun k => w.IsOut k) = w.responses t :=
    List.takeWhile_eq_self_iff.mpr fun k hk => decide_eq_true (h k hk)
  have hlength := congrArg List.length hsent
  rw [sentTo, List.length_map, List.length_map] at hlength
  rw [outCount, hall, hlength]

end Worker

/-! ## Conversations -/

section Conversation

variable {run : List WorkerAction} {w : Worker} {t : ℕ}

theorem sent_of_run (hrun : workerSystem.run run = some w)
    (hturn : ∀ m ∈ workerSystem.moves run, m.src.InTurn m.act) : w.Sent := by
  refine (System.forall_visited_of_moves (fun w => w.Wired ∧ w.Sent) ⟨wired_init, sent_init⟩
    (fun w a w' h hst ha => ⟨h.1.step hst, h.2.step h.1 hst ha⟩) hturn w
    (System.mem_visited_of_run _ hrun)).2

/-- What is sent to a client are the answers to the requests the parser made of its packets. -/
theorem sentTo_of_run {app : HttpRequest → List Reply} (hrun : workerSystem.run run = some w)
    (hfault : w.fault = none) (hanswers : ∀ m ∈ workerSystem.moves run, m.src.Answers app m.act)
    (t : ℕ) : ∃ requests raw, feed [] ((workerSystem.moves run).filterMap (Worker.handed t))
        = .ok (requests, raw) ∧ w.sentTo t = (requests.flatMap app).map Reply.message := by
  obtain ⟨hw, halone⟩ := alone_of_run hrun hfault t
  obtain ⟨-, ⟨raw, hfeed, -⟩, hsent⟩ := halone.servedAlone hw.descriptors
  exact ⟨_, raw, hfeed, hsent.trans (Worker.flatMap_exchanged hanswers)⟩

/-- …and what the client has read are those that are out. -/
theorem reads_of_run {app : HttpRequest → List Reply} (hrun : workerSystem.run run = some w)
    (hfault : w.fault = none) (hturn : ∀ m ∈ workerSystem.moves run, m.src.InTurn m.act)
    (hanswers : ∀ m ∈ workerSystem.moves run, m.src.Answers app m.act)
    (hframed : ∀ request, ∀ reply ∈ app request, reply.WellFramed) (t : ℕ) :
    ∃ requests raw, feed [] ((workerSystem.moves run).filterMap (Worker.handed t))
        = .ok (requests, raw) ∧ w.sentTo t = (requests.flatMap app).map Reply.message ∧
      (responseFraming.readAll (w.wire t)).1
        = ((requests.flatMap app).take (w.outCount t)).map Reply.received := by
  obtain ⟨requests, raw, hfeed, hsent⟩ := sentTo_of_run hrun hfault hanswers t
  refine ⟨requests, raw, hfeed, hsent,
    (sent_of_run hrun hturn).readAll_wire hsent fun reply hreply => ?_⟩
  obtain ⟨request, -, hreply⟩ := List.mem_flatMap.mp hreply
  exact hframed request reply hreply

/-- **A client reads the answers to its requests, in their order, as far as they are out**: in every
run whose bytes are put on the wire in turn and whose handlers answer as the application does, with
well-framed replies. -/
theorem readAll_wire_of_run {app : HttpRequest → List Reply}
    (hrun : workerSystem.run run = some w) (hfault : w.fault = none)
    (hturn : ∀ m ∈ workerSystem.moves run, m.src.InTurn m.act)
    (hanswers : ∀ m ∈ workerSystem.moves run, m.src.Answers app m.act)
    (hframed : ∀ request, ∀ reply ∈ app request, reply.WellFramed) (t : ℕ) :
    ∃ requests raw, feed [] ((workerSystem.moves run).filterMap (Worker.handed t))
        = .ok (requests, raw) ∧
      (responseFraming.readAll (w.wire t)).1
        = ((requests.flatMap app).take (w.outCount t)).map Reply.received := by
  obtain ⟨requests, raw, hfeed, -, hread⟩ := reads_of_run hrun hfault hturn hanswers hframed t
  exact ⟨requests, raw, hfeed, hread⟩

/-- **All the answers are read** once all the packets are handed on and the responses out. -/
theorem readAll_of_handed {routes : List (Route HandlerFunc)}
    (hrun : workerSystem.run run = some w) (hfault : w.fault = none)
    (hturn : ∀ m ∈ workerSystem.moves run, m.src.InTurn m.act)
    (hanswers : ∀ m ∈ workerSystem.moves run,
      m.src.Answers (Router.registered routes).serveHTTP m.act)
    (hroutes : ∀ r ∈ routes, dash ∉ r.method ∧ r.Framed) {written : List WrittenRequest}
    (hwritten : ∀ r ∈ written, dash ∉ r.method.text ∧ ∀ h ∈ r.headers, colon ∉ h.value)
    {seg : Segmentation (written.map WrittenRequest.head)} (hseg : seg.Aligned)
    (hhanded : (workerSystem.moves run).filterMap (Worker.handed t) = seg.packets)
    (hout : ∀ k ∈ w.responses t, w.IsOut k) : (responseFraming.readAll (w.wire t)).1
      = (written.flatMap fun r => exactReplies routes r.request).map Reply.received := by
  obtain ⟨requests, raw, hfeed, hsent, hread⟩ := reads_of_run hrun hfault hturn hanswers
    (wellFramed_serveHTTP fun r hr => (hroutes r hr).2) t
  rw [hhanded, feed_of_written hseg fun r hr => (hwritten r hr).2] at hfeed
  rw [hread, List.take_of_length_le (Worker.length_le_outCount hout hsent),
    ← (Prod.mk.inj (Except.ok.inj hfeed)).1,
    flatMap_serveHTTP (fun r hr => (hroutes r hr).1) fun r hr => (hwritten r hr).1]

/-- What a client has read is at any time the beginning of the replies its routes have for the
requests it wrote, and all of them once its packets are handed on and the responses out — where the
completions carry the packets. -/
theorem conversation_of_run {routes : List (Route HandlerFunc)}
    (hrun : workerSystem.run run = some w) (hfault : w.fault = none)
    (hturn : ∀ m ∈ workerSystem.moves run, m.src.InTurn m.act)
    (hanswers : ∀ m ∈ workerSystem.moves run,
      m.src.Answers (Router.registered routes).serveHTTP m.act)
    (hroutes : ∀ r ∈ routes, dash ∉ r.method ∧ r.Framed) {written : List WrittenRequest}
    (hwritten : ∀ r ∈ written, dash ∉ r.method.text ∧ ∀ h ∈ r.headers, colon ∉ h.value)
    {seg : Segmentation (written.map WrittenRequest.head)} (hseg : seg.Aligned)
    (hreceived : (workerSystem.moves run).filterMap (Worker.received t) <+: seg.packets) :
    (responseFraming.readAll (w.wire t)).1
        <+: (written.flatMap fun r => exactReplies routes r.request).map Reply.received ∧
      ((workerSystem.moves run).filterMap (Worker.handed t) = seg.packets →
        (∀ k ∈ w.responses t, w.IsOut k) → (responseFraming.readAll (w.wire t)).1
          = (written.flatMap fun r => exactReplies routes r.request).map Reply.received) := by
  refine ⟨?_, readAll_of_handed hrun hfault hturn hanswers hroutes hwritten hseg⟩
  obtain ⟨requests, raw, hfeed, -, hread⟩ := reads_of_run hrun hfault hturn hanswers
    (wellFramed_serveHTTP fun r hr => (hroutes r hr).2) t
  -- all packets together are the requests that were written, so those handed on are the first ones
  have hall := feed_of_written hseg fun r hr => (hwritten r hr).2
  have hfirst : requests <+: written.map WrittenRequest.request := by
    obtain ⟨rest, hrest⟩ := hreceived
    rw [(alone_of_run hrun hfault t).2.packets, List.append_assoc] at hrest
    rw [← hrest] at hall
    obtain ⟨first, raw', hfeed', hpre⟩ := feed_prefix hall
    rwa [(Prod.mk.inj (Except.ok.inj (hfeed.symm.trans hfeed'))).1]
  obtain ⟨rest, hrest⟩ := hfirst
  rw [hread, ← flatMap_serveHTTP (fun r hr => (hroutes r hr).1) fun r hr => (hwritten r hr).1,
    ← hrest, List.flatMap_append, List.map_append, List.map_take]
  exact (List.take_prefix _ _).trans (List.prefix_append _ _)

/-- **A connection is a conversation**: under the conditions of all the parts, in every run without
a fault in which the kernel receives into no buffer that a completion still holds, what a client has
read is at any time the beginning of the replies its routes have for the requests it wrote, and all
of them once its packets are handed on and the responses out. -/
theorem conversation_of_bufferedRun (memory : IoUringBufRing) {s : BufferedWorker}
    {routes : List (Route HandlerFunc)} (hrun : (bufferedSystem memory).run run = some s)
    (hfresh : ∀ m ∈ (bufferedSystem memory).moves run, m.src.Fresh m.act)
    (hfault : s.worker.fault = none) (hturn : ∀ m ∈ readings memory run, m.src.InTurn m.act)
    (hanswers : ∀ m ∈ readings memory run,
      m.src.Answers (Router.registered routes).serveHTTP m.act)
    (hroutes : ∀ r ∈ routes, dash ∉ r.method ∧ r.Framed) {written : List WrittenRequest}
    (hwritten : ∀ r ∈ written, dash ∉ r.method.text ∧ ∀ h ∈ r.headers, colon ∉ h.value)
    {seg : Segmentation (written.map WrittenRequest.head)} (hseg : seg.Aligned)
    (hreceived : (readings memory run).filterMap (Worker.received t) <+: seg.packets) :
    (responseFraming.readAll (s.worker.wire t)).1
        <+: (written.flatMap fun r => exactReplies routes r.request).map Reply.received ∧
      ((readings memory run).filterMap (Worker.handed t) = seg.packets →
        (∀ k ∈ s.worker.responses t, s.worker.IsOut k) →
        (responseFraming.readAll (s.worker.wire t)).1
          = (written.flatMap fun r => exactReplies routes r.request).map Reply.received) := by
  obtain ⟨hworker, hmoves, -⟩ := reading_of_run memory hrun hfresh
  rw [← hmoves] at hturn hanswers hreceived ⊢
  exact conversation_of_run hworker hfault hturn hanswers hroutes hwritten hseg hreceived

end Conversation

/-! ## One request in two packets -/

/-- `GET /a`. -/
def helloRequest : WrittenRequest where
  method := hostWithPort.method
  url := ⟨ascii "/a", List.cons_ne_nil _ _, List.all_iff_forall_prop.mp (by decide)⟩
  version := hostWithPort.version
  headers := []

/-- Cut behind the method. -/
def helloPackets : Segmentation ([helloRequest].map WrittenRequest.head) where
  packets := [ascii "GET", ascii " /a HTTP/1.1\r\n\r\n"]
  flatten_eq := by decide

/-- One route for it. -/
def helloRoutes : List (Route HandlerFunc) :=
  [⟨ascii "GET", ascii "/a", fun _ => [.string 200 (ascii "hi")]⟩]

/-- What its handler sends. -/
def helloReply : Reply where
  contentType := ascii "text/plain"
  body := ascii "hi"
  message := ascii "HTTP/1.0 200 OK\r\nContent-Type:text/plain\r\nContent-Length:2\r\n\r\nhi"

/-- A client connects, sends the request, and gets the response. -/
def helloRun : List WorkerAction :=
  [.submit, .completeAccept 0 5 true, .collect, .dispatch [], .submit,
    .completeRecv 1 3 (ascii "GET"), .collect, .dispatch [], .submit,
    .completeRecv 1 16 (ascii " /a HTTP/1.1\r\n\r\n"), .collect,
    .dispatch [helloReply.message], .submit, .completeSend 1 64 helloReply.message]

theorem aligned_helloPackets : helloPackets.Aligned := by
  intro k hpos hle
  obtain rfl : k = 1 := Nat.le_antisymm hle hpos
  exact ⟨2, by decide⟩

theorem written_helloRequest : ∀ r ∈ [helloRequest],
    dash ∉ r.method.text ∧ ∀ h ∈ r.headers, colon ∉ h.value :=
  List.forall_mem_singleton.mpr ⟨by decide, fun _ h => absurd h List.not_mem_nil⟩

theorem framed_helloRoutes : ∀ r ∈ helloRoutes, dash ∉ r.method ∧ r.Framed := by
  refine List.forall_mem_singleton.mpr ⟨by decide, fun request m hm => ?_⟩
  obtain rfl := List.mem_singleton.mp hm
  exact ⟨rfl, fun _ h => absurd h List.not_mem_nil⟩

theorem exactReplies_helloRoutes :
    [helloRequest].flatMap (fun r => exactReplies helloRoutes r.request) = [helloReply] := by
  decide +kernel

theorem readAll_wire_helloRun : ∃ w, workerSystem.run helloRun = some w ∧
    ∃ requests raw, feed [] ((workerSystem.moves helloRun).filterMap (Worker.handed 0))
        = .ok (requests, raw) ∧
      (responseFraming.readAll (w.wire 0)).1
        = ((requests.flatMap fun _ => [helloReply]).take (w.outCount 0)).map Reply.received := by
  obtain ⟨w, hrun, hfault⟩ : ∃ w, workerSystem.run helloRun = some w ∧ w.fault = none :=
    ⟨_, rfl, rfl⟩
  have hframed : helloReply.WellFramed := by decide +kernel
  exact ⟨w, hrun, readAll_wire_of_run hrun hfault (by decide) (by decide +kernel)
    (fun _ => List.forall_mem_singleton.mpr hframed) 0⟩

/-- **The client has read `hi`.** -/
theorem conversation_helloRun : ∃ s, (bufferedSystem cleared).run helloRun = some s ∧
    (responseFraming.readAll (s.worker.wire 0)).1 = [helloReply.received] := by
  obtain ⟨w, hrun, hfault, hout⟩ : ∃ w, workerSystem.run helloRun = some w ∧ w.fault = none ∧
      ∀ k ∈ w.responses 0, w.IsOut k := ⟨_, rfl, rfl, by decide⟩
  have hturn : ∀ m ∈ workerSystem.moves helloRun, m.src.InTurn m.act := by decide
  have hanswers : ∀ m ∈ workerSystem.moves helloRun,
      m.src.Answers (Router.registered helloRoutes).serveHTTP m.act := by decide +kernel
  have hreceived : (workerSystem.moves helloRun).filterMap (Worker.received 0)
      = helloPackets.packets := by decide +kernel
  have hhanded : (workerSystem.moves helloRun).filterMap (Worker.handed 0)
      = helloPackets.packets := by decide +kernel
  obtain ⟨s, hs, hfresh, hsound, -⟩ :=
    exists_bufferedRun cleared hrun (by decide +kernel) (by decide)
  obtain rfl := hsound.reading_eq
  rw [(reading_of_run cleared hs hfresh).2.1] at hturn hanswers hreceived hhanded
  have hread := (conversation_of_bufferedRun cleared hs hfresh hfault hturn hanswers
    framed_helloRoutes written_helloRequest aligned_helloPackets (by rw [hreceived])).2 hhanded hout
  rw [exactReplies_helloRoutes] at hread
  exact ⟨s, hs, hread⟩

end YServer
