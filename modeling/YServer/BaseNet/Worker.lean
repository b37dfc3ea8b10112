import YServer.BaseNet.HttpParser
import YServer.BaseNet.Socket
import YServer.Machinery.Runs
import Mathlib.Logic.Function.Basic

/-!
# BaseNet/Worker — one worker thread, its coroutines and the kernel

A `thread_worker` runs one accept coroutine, one `handle_client` for each connection, and one send
coroutine for each response.  Every coroutine prepares a request, suspends on it, and is resumed by
the event loop with the completion the kernel posts:

    prepared (sq) ─submit─▶ kernel ──▶ completed (cq) ─dispatch─▶ resumed coroutine ──▶ prepared …

The model keeps all three places, the descriptor table through which the kernel finds the socket a
request names, and what has reached each client.  The kernel completes requests in any order and
with any result its interface allows, new descriptors are any that are not open, and the handler
behind `ServeHTTP` answers a request with any messages.  A received packet stands for the buffer it
came in.
-/

namespace YServer

open Machinery

/-! ## What the threads of control leave where -/

/-- A prepared request; connections and send coroutines go by number. -/
inductive Request
  | accept
  | recv (conn : ℕ) (rawFileDescriptor : ℤ)
  | send (task : ℕ) (rawFileDescriptor : ℤ) (offset length : ℕ)
  deriving DecidableEq, Repr

/-- The coroutine a request's user data names. -/
inductive Tag
  | accept
  | recv (conn : ℕ)
  | send (task : ℕ)
  deriving DecidableEq, Repr

def Request.tag : Request → Tag
  | .accept => .accept
  | .recv conn _ => .recv conn
  | .send task _ _ _ => .send task

/-- A submitted request, with the TCP connection its descriptor named at that moment. -/
structure InFlight where
  request : Request
  target : Option ℕ
  deriving DecidableEq, Repr

/-- A completion queue entry. -/
inductive Completion
  /-- `more` is `IORING_CQE_F_MORE`. -/
  | accept (res : ℤ) (more : Bool)
  | recv (conn : ℕ) (res : ℤ) (packet : Bytes)
  | send (task : ℕ) (res : ℤ)
  deriving DecidableEq, Repr

def Completion.tag : Completion → Tag
  | .accept _ _ => .accept
  | .recv conn _ _ => .recv conn
  | .send task _ => .send task

def Completion.res : Completion → ℤ
  | .accept res _ => res
  | .recv _ res _ => res
  | .send _ res => res

/-- A `client_socket` with the `handle_client` that owns it. -/
structure Connection where
  rawFileDescriptor : ℤ
  /-- The TCP connection the descriptor was accepted for. -/
  peer : Option ℕ
  rawHttpRequest : Bytes
  /-- The handler has not left its loop, so the socket exists and its descriptor is open. -/
  inLoop : Bool
  deriving DecidableEq, Repr

/-- A coroutine of `client_socket::send`. -/
structure SendTask where
  conn : ℕ
  message : Bytes
  bytesSent : ℕ
  suspended : Bool
  /-- The awaiter has deleted the message. -/
  released : Bool
  /-- How much the kernel has put on the wire for it. -/
  put : ℕ
  deriving DecidableEq, Repr

/-- Where the event loop stands. -/
inductive LoopPoint
  /-- Inside `io_uring_submit_and_wait`, everything submitted. -/
  | waiting
  /-- In the range loop, with so many completions of the batch left. -/
  | batch (left : ℕ)
  deriving DecidableEq, Repr

structure Worker where
  sq : List Request
  kernel : List InFlight
  cq : List Completion
  loop : LoopPoint
  /-- The accept coroutine has not been destroyed. -/
  accepting : Bool
  connCount : ℕ
  conns : ℕ → Connection
  sendCount : ℕ
  sends : ℕ → SendTask
  /-- The open descriptors, with the TCP connections they stand for. -/
  fds : ℤ → Option ℕ
  /-- How many TCP connections the kernel has accepted. -/
  accepted : ℕ
  /-- What has reached each TCP connection's client. -/
  wire : ℕ → Bytes
  fault : Option Fault

/-! ## The program -/

namespace Worker

/-- `io_uring_get_sqe`, and the writes to the entry it returns. -/
def prepare (w : Worker) (request : Request) : Except Fault Worker :=
  if w.sq.length < ioUringQueueSize then .ok { w with sq := w.sq ++ [request] }
  else .error .nullSqe

/-- `co_await client_socket->recv(BUFFER_SIZE)`, up to the suspension. -/
def recv (w : Worker) (conn : ℕ) : Except Fault Worker :=
  w.prepare (.recv conn (w.conns conn).rawFileDescriptor)

/-- A new send coroutine. -/
def startSend (w : Worker) (task : SendTask) : Worker :=
  { w with
    sendCount := w.sendCount + 1
    sends := Function.update w.sends w.sendCount task }

/-- A send coroutine's own variables change. -/
def setSend (w : Worker) (k : ℕ) (task : SendTask) : Worker :=
  { w with sends := Function.update w.sends k task }

/-- `http_response::send`: a new send coroutine runs up to its first suspension and is detached. -/
def send (w : Worker) (conn : ℕ) (message : Bytes) : Except Fault Worker :=
  let task : SendTask := ⟨conn, message, 0, false, false, 0⟩
  match sendTurn message.length 0 with
  | .awaiting offset =>
    (w.startSend { task with suspended := true }).prepare
      (.send w.sendCount (w.conns conn).rawFileDescriptor offset message.length)
  | .returned _ => .ok (w.startSend task)

/-- A send coroutine goes on with the result of its request.  It still reads the descriptor in its
socket, whether that exists or not. -/
def resumeSend (w : Worker) (k : ℕ) (res : ℤ) : Except Fault Worker :=
  let task := { w.sends k with released := true }
  match sendResumed task.message.length task.bytesSent res with
  | .awaiting offset =>
    (w.setSend k { task with bytesSent := offset }).prepare
      (.send k (w.conns task.conn).rawFileDescriptor offset task.message.length)
  | .returned _ => .ok (w.setSend k { task with suspended := false })

/-- The handler's frame goes, the last reference to the socket with it, and `close` follows. -/
def leave (w : Worker) (conn : ℕ) : Worker :=
  { w with
    conns := Function.update w.conns conn { w.conns conn with inLoop := false }
    fds := Function.update w.fds (w.conns conn).rawFileDescriptor none }

/-- What the parser keeps. -/
def setRaw (w : Worker) (conn : ℕ) (raw : Bytes) : Worker :=
  { w with conns := Function.update w.conns conn { w.conns conn with rawHttpRequest := raw } }

/-- `ServeHTTP`, with the messages the handler sends. -/
def serve (w : Worker) (conn : ℕ) (replies : List Bytes) : Except Fault Worker :=
  replies.foldlM (fun w message => w.send conn message) w

/-- `handle_client`, from a completion of its recv to the next suspension or its end; a negative
result is a size that no string can have. -/
def handleClient (w : Worker) (conn : ℕ) (res : ℤ) (packet : Bytes) (replies : List Bytes) :
    Except Fault Worker :=
  if res = 0 then .ok (w.leave conn)
  else if res < 0 then .error .terminate
  else
    match parsePacket (w.conns conn).rawHttpRequest packet with
    | .error fault => .error fault
    | .ok (none, raw) => (w.setRaw conn raw).recv conn
    | .ok (some _, raw) => (w.setRaw conn raw).serve conn replies >>= fun w => w.recv conn

/-- A `client_socket` for a descriptor. -/
def connect (w : Worker) (rawFileDescriptor : ℤ) : Worker :=
  { w with
    connCount := w.connCount + 1
    conns := Function.update w.conns w.connCount
      ⟨rawFileDescriptor, w.fds rawFileDescriptor, [], true⟩ }

/-- `accept_client`, from a completion to its next suspension. -/
def acceptClient (w : Worker) (res : ℤ) (more : Bool) : Except Fault Worker :=
  (if more then .ok w else w.prepare .accept) >>= fun w =>
    if res = -1 then .ok w else (w.connect res).recv w.connCount

/-- The coroutine has a frame. -/
def alive (w : Worker) : Tag → Bool
  | .accept => w.accepting
  | .recv conn => (w.conns conn).inLoop
  | .send task => (w.sends task).suspended

/-- `coroutine_handle::resume`. -/
def resume (w : Worker) (replies : List Bytes) : Completion → Except Fault Worker
  | .accept res more => w.acceptClient res more
  | .recv conn res packet => w.handleClient conn res packet replies
  | .send task res => w.resumeSend task res

/-- `coroutine_handle::destroy`. -/
def destroy (w : Worker) : Tag → Worker
  | .accept => { w with accepting := false }
  | .recv conn => w.leave conn
  | .send task => w.setSend task { w.sends task with suspended := false }

/-- The end of a turn of the event loop, once the completion is marked as seen. -/
def dispatch (w : Worker) (replies : List Bytes) (completion : Completion) : Except Fault Worker :=
  if w.alive completion.tag = false then .error .deadCoroutine
  else if completion.res = -etime then .ok (w.destroy completion.tag)
  else w.resume replies completion

end Worker

/-! ## The steps of the worker and of the kernel -/

inductive WorkerAction
  /-- The event loop submits all it has prepared. -/
  | submit
  /-- …and goes on with the completions it finds, at least one. -/
  | collect
  /-- It dispatches the next one; a handler that gets a request answers it with `replies`. -/
  | dispatch (replies : List Bytes)
  /-- The kernel completes its `j`-th request, an accept. -/
  | completeAccept (j : ℕ) (res : ℤ) (more : Bool)
  /-- …a recv, with the packet in the buffer it selects. -/
  | completeRecv (j : ℕ) (res : ℤ) (packet : Bytes)
  /-- …a send, having put these bytes on the wire. -/
  | completeSend (j : ℕ) (res : ℤ) (bytes : Bytes)
  deriving DecidableEq, Repr

namespace Worker

/-- The event loop has read a completion and marked it as seen; `cq` is behind it. -/
def cqeSeen (w : Worker) (cq : List Completion) (left : ℕ) : Worker :=
  { w with cq := cq, loop := .batch left }

/-- What a request's descriptor stands for when it is submitted. -/
def resolve (w : Worker) (request : Request) : InFlight :=
  ⟨request, match request with
    | .accept => none
    | .recv _ fd => w.fds fd
    | .send _ fd _ _ => w.fds fd⟩

/-- The kernel posts a completion for its `j`-th request and is done with it. -/
def post (w : Worker) (j : ℕ) (completion : Completion) : Worker :=
  { w with kernel := w.kernel.eraseIdx j, cq := w.cq ++ [completion] }

/-- A multishot accept: a new descriptor with the next TCP connection behind it, or an error; the
request stays armed if there is more to come. -/
def completeAccept (w : Worker) (j : ℕ) (res : ℤ) (more : Bool) : Worker :=
  { w with
    kernel := if more then w.kernel else w.kernel.eraseIdx j
    cq := w.cq ++ [.accept res more]
    fds := if 0 ≤ res then Function.update w.fds res (some w.accepted) else w.fds
    accepted := if 0 ≤ res then w.accepted + 1 else w.accepted }

/-- What the kernel may answer to a recv. -/
def RecvAnswer (target : Option ℕ) (res : ℤ) (packet : Bytes) : Prop :=
  (packet.length : ℤ) = max res 0 ∧ res ≤ bufferSize ∧ (0 ≤ res → target.isSome)

/-- What the kernel may answer to a send: it takes its bytes from the message while that exists, and
from anything afterwards. -/
def SendAnswer (task : SendTask) (target : Option ℕ) (offset length : ℕ) (res : ℤ) (bytes : Bytes) :
    Prop :=
  (bytes.length : ℤ) = max res 0 ∧ res ≤ length ∧ (0 ≤ res → target.isSome) ∧
    (task.released = false → bytes <+: task.message.drop offset)

instance (target : Option ℕ) (res : ℤ) (packet : Bytes) :
    Decidable (RecvAnswer target res packet) :=
  inferInstanceAs (Decidable (_ ∧ _ ∧ _))

instance (task : SendTask) (target : Option ℕ) (offset length : ℕ) (res : ℤ) (bytes : Bytes) :
    Decidable (SendAnswer task target offset length res bytes) :=
  inferInstanceAs (Decidable (_ ∧ _ ∧ _ ∧ _))

/-- Bytes reach a TCP connection's client. -/
def transmit (w : Worker) (k : ℕ) (target : Option ℕ) (bytes : Bytes) : Worker :=
  { w.setSend k { w.sends k with put := (w.sends k).put + bytes.length } with
    wire := match target with
      | none => w.wire
      | some t => Function.update w.wire t (w.wire t ++ bytes) }

/-- One step of the worker or of the kernel.  A fault ends the run, in the state before the dispatch
that made it. -/
def step (w : Worker) (a : WorkerAction) : Option Worker :=
  if w.fault.isSome then none
  else
    match a with
    | .submit =>
      if w.loop = .batch 0 then
        some { w with sq := [], kernel := w.kernel ++ w.sq.map w.resolve, loop := .waiting }
      else none
    | .collect =>
      if w.loop = .waiting ∧ w.cq ≠ [] then some { w with loop := .batch w.cq.length } else none
    | .dispatch replies =>
      match w.loop, w.cq with
      | .batch (left + 1), completion :: cq =>
        match (w.cqeSeen cq left).dispatch replies completion with
        | .ok w' => some w'
        | .error fault => some { w with fault := some fault }
      | _, _ => none
    | .completeAccept j res more =>
      match w.kernel[j]? with
      | some ⟨.accept, _⟩ =>
        if w.cq.length < 2 * ioUringQueueSize ∧ w.fds res = none then
          some (w.completeAccept j res more)
        else none
      | _ => none
    | .completeRecv j res packet =>
      match w.kernel[j]? with
      | some ⟨.recv conn _, target⟩ =>
        if w.cq.length < 2 * ioUringQueueSize ∧ RecvAnswer target res packet then
          some (w.post j (.recv conn res packet))
        else none
      | _ => none
    | .completeSend j res bytes =>
      match w.kernel[j]? with
      | some ⟨.send k _ offset length, target⟩ =>
        if w.cq.length < 2 * ioUringQueueSize ∧
            SendAnswer (w.sends k) target offset length res bytes then
          some ((w.transmit k target bytes).post j (.send k res))
        else none
      | _ => none

end Worker

/-- A worker from the start of its event loop on: its constructor has started the accept coroutine.
-/
def workerSystem : System Worker WorkerAction where
  init :=
    { sq := [.accept]
      kernel := []
      cq := []
      loop := .batch 0
      accepting := true
      connCount := 0
      conns := fun _ => ⟨-1, none, [], false⟩
      sendCount := 0
      sends := fun _ => ⟨0, [], 0, false, false, 0⟩
      fds := fun _ => none
      accepted := 0
      wire := fun _ => []
      fault := none }
  step := Worker.step

namespace Worker

/-! ## What a connection keeps -/

section Connection

variable {w : Worker}

/-- A handler whose parser keeps other bytes is the same handler… -/
theorem peer_setRaw (conn : ℕ) (raw : Bytes) (i : ℕ) :
    ((w.setRaw conn raw).conns i).peer = (w.conns i).peer := by
  rcases eq_or_ne i conn with rfl | hne <;> simp [setRaw, *]

theorem rawFileDescriptor_setRaw (conn : ℕ) (raw : Bytes) (i : ℕ) :
    ((w.setRaw conn raw).conns i).rawFileDescriptor = (w.conns i).rawFileDescriptor := by
  rcases eq_or_ne i conn with rfl | hne <;> simp [setRaw, *]

theorem inLoop_setRaw (conn : ℕ) (raw : Bytes) (i : ℕ) :
    ((w.setRaw conn raw).conns i).inLoop = (w.conns i).inLoop := by
  rcases eq_or_ne i conn with rfl | hne <;> simp [setRaw, *]

/-- …and one that leaves was for the same socket. -/
theorem peer_leave (conn i : ℕ) : ((w.leave conn).conns i).peer = (w.conns i).peer := by
  rcases eq_or_ne i conn with rfl | hne <;> simp [leave, *]

theorem rawFileDescriptor_leave (conn i : ℕ) :
    ((w.leave conn).conns i).rawFileDescriptor = (w.conns i).rawFileDescriptor := by
  rcases eq_or_ne i conn with rfl | hne <;> simp [leave, *]

end Connection

/-! ## What a dispatch can do -/

section Resumed

variable {w w' : Worker}

theorem prepare_eq_ok {request : Request} (h : w.prepare request = .ok w') :
    w' = { w with sq := w.sq ++ [request] } := by
  rw [prepare] at h
  split at h
  · exact (Except.ok.inj h).symm
  · cases h

/-- A response is a new send coroutine, with its first request prepared unless the message is empty.
-/
theorem send_eq_ok {conn : ℕ} {message : Bytes} (h : w.send conn message = .ok w') :
    (message ≠ [] ∧ w' = { w.startSend ⟨conn, message, 0, true, false, 0⟩ with
        sq := w.sq ++
          [.send w.sendCount (w.conns conn).rawFileDescriptor 0 message.length] }) ∨
      message = [] ∧ w' = w.startSend ⟨conn, message, 0, false, false, 0⟩ := by
  rw [send] at h
  rcases message with _ | ⟨a, message⟩
  · exact Or.inr ⟨rfl, (Except.ok.inj h).symm⟩
  · exact Or.inl ⟨List.cons_ne_nil _ _, prepare_eq_ok h⟩

theorem conns_of_serve {conn : ℕ} {replies : List Bytes} (h : w.serve conn replies = .ok w') :
    w'.conns = w.conns := by
  induction replies generalizing w with
  | nil => rw [← Except.ok.inj h]
  | cons message replies ih =>
    obtain ⟨w₁, hsend, hrest⟩ := bind_eq_ok h
    refine (ih hrest).trans ?_
    rcases send_eq_ok hsend with ⟨-, rfl⟩ | ⟨-, rfl⟩ <;> rfl

/-- The multishot accept is armed: it still is, or it is again. -/
inductive Armed (w : Worker) : Bool → Worker → Prop
  | still : Armed w true w
  | again {w' : Worker} : w.prepare .accept = .ok w' → Armed w false w'

/-- What a dispatched completion makes of the coroutine it names. -/
inductive Resumed (w : Worker) (replies : List Bytes) : Completion → Worker → Prop
  | acceptDestroyed {more : Bool} :
    Resumed w replies (.accept (-etime) more) { w with accepting := false }
  | acceptFailed {more : Bool} {w₁ : Worker} : Armed w more w₁ →
    Resumed w replies (.accept (-1) more) w₁
  | connected {res : ℤ} {more : Bool} {w₁ w' : Worker} : Armed w more w₁ → res ≠ -1 →
    (w₁.connect res).recv w₁.connCount = .ok w' → Resumed w replies (.accept res more) w'
  | left {conn : ℕ} {res : ℤ} {packet : Bytes} : res = 0 ∨ res = -etime →
    Resumed w replies (.recv conn res packet) (w.leave conn)
  | kept {conn : ℕ} {res : ℤ} {packet raw : Bytes} {w' : Worker} : 0 < res →
    parsePacket (w.conns conn).rawHttpRequest packet = .ok (none, raw) →
    (w.setRaw conn raw).recv conn = .ok w' → Resumed w replies (.recv conn res packet) w'
  | served {conn : ℕ} {res : ℤ} {packet raw : Bytes} {request : HttpRequest} {w₁ w' : Worker} :
    0 < res → parsePacket (w.conns conn).rawHttpRequest packet = .ok (some request, raw) →
    (w.setRaw conn raw).serve conn replies = .ok w₁ → w₁.recv conn = .ok w' →
    Resumed w replies (.recv conn res packet) w'
  | sendDestroyed {k : ℕ} :
    Resumed w replies (.send k (-etime)) (w.setSend k { w.sends k with suspended := false })
  | sendEnded {k : ℕ} {res value : ℤ} : res ≠ -etime →
    sendResumed (w.sends k).message.length (w.sends k).bytesSent res = .returned value →
    Resumed w replies (.send k res)
      (w.setSend k { w.sends k with released := true, suspended := false })
  | sendAgain {k offset : ℕ} {res : ℤ} {w' : Worker} : res ≠ -etime →
    sendResumed (w.sends k).message.length (w.sends k).bytesSent res = .awaiting offset →
    (w.setSend k { w.sends k with released := true, bytesSent := offset }).prepare
      (.send k (w.conns (w.sends k).conn).rawFileDescriptor offset (w.sends k).message.length)
        = .ok w' → Resumed w replies (.send k res) w'

theorem resumed_of_acceptClient {replies : List Bytes} {res : ℤ} {more : Bool}
    (h : w.acceptClient res more = .ok w') : Resumed w replies (.accept res more) w' := by
  obtain ⟨w₁, harm, hrest⟩ := bind_eq_ok h
  have harmed : Armed w more w₁ := by
    cases more with
    | true => exact Except.ok.inj harm ▸ .still
    | false => exact .again harm
  split at hrest
  · next hres =>
    subst hres
    exact Except.ok.inj hrest ▸ .acceptFailed harmed
  · next hres => exact .connected harmed hres hrest

theorem resumed_of_handleClient {replies : List Bytes} {conn : ℕ} {res : ℤ} {packet : Bytes}
    (h : w.handleClient conn res packet replies = .ok w') :
    Resumed w replies (.recv conn res packet) w' := by
  rw [handleClient] at h
  rcases lt_trichotomy res 0 with hneg | rfl | hpos
  · rw [if_neg hneg.ne, if_pos hneg] at h
    cases h
  · exact Except.ok.inj h ▸ .left (Or.inl rfl)
  · rw [if_neg hpos.ne', if_neg hpos.not_gt] at h
    rcases hparse : parsePacket (w.conns conn).rawHttpRequest packet
      with fault | ⟨_ | request, raw⟩ <;> simp only [hparse] at h
    · cases h
    · exact .kept hpos hparse h
    · obtain ⟨w₁, hserve, hrecv⟩ := bind_eq_ok h
      exact .served hpos hparse hserve hrecv

theorem resumed_of_resumeSend {replies : List Bytes} {k : ℕ} {res : ℤ} (htime : res ≠ -etime)
    (h : w.resumeSend k res = .ok w') : Resumed w replies (.send k res) w' := by
  rw [resumeSend] at h
  cases hresumed : sendResumed (w.sends k).message.length (w.sends k).bytesSent res with
  | awaiting offset =>
    simp only [hresumed] at h
    exact .sendAgain htime hresumed h
  | returned value =>
    simp only [hresumed] at h
    exact Except.ok.inj h ▸ .sendEnded htime hresumed

/-- **Every dispatch that faults on nothing does one of these**, to a coroutine that is alive. -/
theorem resumed_of_dispatch {replies : List Bytes} {c : Completion}
    (h : w.dispatch replies c = .ok w') : w.alive c.tag = true ∧ w.Resumed replies c w' := by
  rw [dispatch] at h
  split at h
  · cases h
  next hdead =>
    refine ⟨Bool.not_eq_false _ ▸ hdead, ?_⟩
    split at h
    · next htime =>
      rw [← Except.ok.inj h]
      cases c with
      | accept res more => cases htime; exact .acceptDestroyed
      | recv conn res packet => exact .left (Or.inr htime)
      | send k res => cases htime; exact .sendDestroyed
    · next htime =>
      cases c with
      | accept res more => exact resumed_of_acceptClient h
      | recv conn res packet => exact resumed_of_handleClient h
      | send k res => exact resumed_of_resumeSend htime h

end Resumed

/-! ## What the program leaves to the kernel -/

/-- Nothing but the program's own state has changed. -/
structure SameKernel (w w' : Worker) : Prop where
  kernel : w'.kernel = w.kernel
  cq : w'.cq = w.cq
  loop : w'.loop = w.loop
  accepted : w'.accepted = w.accepted
  wire : w'.wire = w.wire
  fault : w'.fault = w.fault

section SameKernel

variable {w w' w'' : Worker}

theorem SameKernel.refl (w : Worker) : SameKernel w w := ⟨rfl, rfl, rfl, rfl, rfl, rfl⟩

theorem SameKernel.trans (h : SameKernel w w') (h' : SameKernel w' w'') : SameKernel w w'' :=
  ⟨h'.kernel.trans h.kernel, h'.cq.trans h.cq, h'.loop.trans h.loop, h'.accepted.trans h.accepted,
    h'.wire.trans h.wire, h'.fault.trans h.fault⟩

theorem SameKernel.prepare {request : Request} (h : w.prepare request = .ok w') :
    SameKernel w w' := by
  rw [prepare_eq_ok h]
  exact ⟨rfl, rfl, rfl, rfl, rfl, rfl⟩

theorem SameKernel.serve {conn : ℕ} {replies : List Bytes} (h : w.serve conn replies = .ok w') :
    SameKernel w w' := by
  induction replies generalizing w with
  | nil => rw [← Except.ok.inj h]; exact .refl w
  | cons message replies ih =>
    obtain ⟨w₁, hsend, hrest⟩ := bind_eq_ok h
    refine SameKernel.trans ?_ (ih hrest)
    rcases send_eq_ok hsend with ⟨-, rfl⟩ | ⟨-, rfl⟩ <;> exact ⟨rfl, rfl, rfl, rfl, rfl, rfl⟩

/-- **A dispatch prepares requests and posts none.** -/
theorem SameKernel.dispatch {replies : List Bytes} {c : Completion}
    (h : w.dispatch replies c = .ok w') : SameKernel w w' := by
  have harmed : ∀ {more : Bool} {w₁ : Worker}, Armed w more w₁ → SameKernel w w₁ := by
    rintro more w₁ (_ | hok)
    · exact .refl w
    · exact .prepare hok
  cases (resumed_of_dispatch h).2 with
  | acceptDestroyed => exact ⟨rfl, rfl, rfl, rfl, rfl, rfl⟩
  | acceptFailed harm => exact harmed harm
  | connected harm hres hrecv =>
    exact (harmed harm).trans (.trans (by exact ⟨rfl, rfl, rfl, rfl, rfl, rfl⟩) (.prepare hrecv))
  | left hres => exact ⟨rfl, rfl, rfl, rfl, rfl, rfl⟩
  | kept hpos hparse hrecv =>
    exact .trans (by exact ⟨rfl, rfl, rfl, rfl, rfl, rfl⟩) (.prepare hrecv)
  | served hpos hparse hserve hrecv =>
    exact .trans (by exact ⟨rfl, rfl, rfl, rfl, rfl, rfl⟩)
      ((SameKernel.serve hserve).trans (.prepare hrecv))
  | sendDestroyed => exact ⟨rfl, rfl, rfl, rfl, rfl, rfl⟩
  | sendEnded => exact ⟨rfl, rfl, rfl, rfl, rfl, rfl⟩
  | sendAgain htime hresumed hok =>
    exact .trans (by exact ⟨rfl, rfl, rfl, rfl, rfl, rfl⟩) (.prepare hok)

end SameKernel

/-! ## What a step can do -/

section StepDispatch

variable {w w' : Worker} {replies : List Bytes} {left : ℕ} {c : Completion} {cq : List Completion}

theorem step_dispatch_ok (hfault : w.fault = none) (hloop : w.loop = .batch (left + 1))
    (hcq : w.cq = c :: cq) (hok : (w.cqeSeen cq left).dispatch replies c = .ok w') :
    w.step (.dispatch replies) = some w' := by
  simp only [step, hfault, Option.isSome_none, Bool.false_eq_true, if_false, hloop, hcq, hok]

theorem step_dispatch_error {fault : Fault} (hfault : w.fault = none)
    (hloop : w.loop = .batch (left + 1)) (hcq : w.cq = c :: cq)
    (herr : (w.cqeSeen cq left).dispatch replies c = .error fault) :
    w.step (.dispatch replies) = some { w with fault := some fault } := by
  simp only [step, hfault, Option.isSome_none, Bool.false_eq_true, if_false, hloop, hcq, herr]

end StepDispatch

/-- The steps, one constructor for each thing that can happen. -/
inductive Stepped (w : Worker) : WorkerAction → Worker → Prop
  | submit : w.loop = .batch 0 →
    Stepped w .submit { w with
      sq := []
      kernel := w.kernel ++ w.sq.map w.resolve
      loop := .waiting }
  | collect : w.loop = .waiting → w.cq ≠ [] →
    Stepped w .collect { w with loop := .batch w.cq.length }
  | dispatch {replies : List Bytes} {left : ℕ} {c : Completion} {cq : List Completion}
      {t : Worker} :
    w.loop = .batch (left + 1) → w.cq = c :: cq →
    (w.cqeSeen cq left).dispatch replies c = .ok t →
    Stepped w (.dispatch replies) t
  | fault {replies : List Bytes} {left : ℕ} {c : Completion} {cq : List Completion}
      {fault : Fault} :
    w.loop = .batch (left + 1) → w.cq = c :: cq →
    (w.cqeSeen cq left).dispatch replies c = .error fault →
    Stepped w (.dispatch replies) { w with fault := some fault }
  | completeAccept {j : ℕ} {res : ℤ} {more : Bool} {target : Option ℕ} :
    w.kernel[j]? = some ⟨.accept, target⟩ → w.cq.length < 2 * ioUringQueueSize → w.fds res = none →
    Stepped w (.completeAccept j res more) (w.completeAccept j res more)
  | completeRecv {j conn : ℕ} {res fd : ℤ} {packet : Bytes} {target : Option ℕ} :
    w.kernel[j]? = some ⟨.recv conn fd, target⟩ → w.cq.length < 2 * ioUringQueueSize →
    RecvAnswer target res packet →
    Stepped w (.completeRecv j res packet) (w.post j (.recv conn res packet))
  | completeSend {j k offset length : ℕ} {res fd : ℤ} {bytes : Bytes} {target : Option ℕ} :
    w.kernel[j]? = some ⟨.send k fd offset length, target⟩ → w.cq.length < 2 * ioUringQueueSize →
    SendAnswer (w.sends k) target offset length res bytes →
    Stepped w (.completeSend j res bytes) ((w.transmit k target bytes).post j (.send k res))

/-- **Every step is one of these**, out of a state without a fault. -/
theorem stepped_of_step {w t : Worker} {a : WorkerAction} (hst : w.step a = some t) :
    w.fault = none ∧ w.Stepped a t := by
  unfold step at hst
  split at hst
  · cases hst
  next hfault =>
    refine ⟨Option.not_isSome_iff_eq_none.mp hfault, ?_⟩
    cases a with
    | submit =>
      simp only [Option.ite_none_right_eq_some, Option.some.injEq] at hst
      exact hst.2 ▸ .submit hst.1
    | collect =>
      simp only [Option.ite_none_right_eq_some, Option.some.injEq] at hst
      exact hst.2 ▸ .collect hst.1.1 hst.1.2
    | dispatch replies =>
      simp only at hst
      split at hst
      · next left c cq hloop hcq =>
        split at hst
        · next w' hok => exact Option.some.inj hst ▸ .dispatch hloop hcq hok
        · next fault herr => exact Option.some.inj hst ▸ .fault hloop hcq herr
      · cases hst
    | completeAccept j res more =>
      simp only at hst
      split at hst
      · next target hj =>
        simp only [Option.ite_none_right_eq_some, Option.some.injEq] at hst
        exact hst.2 ▸ .completeAccept hj hst.1.1 hst.1.2
      · cases hst
    | completeRecv j res packet =>
      simp only at hst
      split at hst
      · next conn fd target hj =>
        simp only [Option.ite_none_right_eq_some, Option.some.injEq] at hst
        exact hst.2 ▸ .completeRecv hj hst.1.1 hst.1.2
      · cases hst
    | completeSend j res bytes =>
      simp only at hst
      split at hst
      · next k fd offset length target hj =>
        simp only [Option.ite_none_right_eq_some, Option.some.injEq] at hst
        exact hst.2 ▸ .completeSend hj hst.1.1 hst.1.2
      · cases hst

/-- …and they are all. -/
theorem step_of_stepped {w w' : Worker} {a : WorkerAction} (hfault : w.fault = none)
    (h : w.Stepped a w') : w.step a = some w' := by
  cases h with
  | submit hloop => simp [step, hfault, hloop]
  | collect hloop hcq => simp [step, hfault, hloop, hcq]
  | dispatch hloop hcq hok => exact step_dispatch_ok hfault hloop hcq hok
  | fault hloop hcq herr => exact step_dispatch_error hfault hloop hcq herr
  | completeAccept hj hroom hfd => simp [step, hfault, hj, hroom, hfd]
  | completeRecv hj hroom hanswer => simp [step, hfault, hj, hroom, hanswer]
  | completeSend hj hroom hanswer => simp [step, hfault, hj, hroom, hanswer]

end Worker

end YServer
