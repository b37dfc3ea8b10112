import YServer.BaseNet.BufferContents
import YServer.BaseNet.Exchange
import YServer.BaseNet.HandleClient

/-!
# BaseNet/BufferedWorker — the worker with its buffers

`BaseNet/Worker` lets a completion carry the packet.  Here it carries none: the kernel writes what
it received into the buffer it selects, and `handle_client` reads it there when the completion is
dispatched, and returns the buffer:

    Worker            completeRecv ──────── packet in the completion ────────▸ dispatch
    BufferedWorker    completeRecv ─select─▸ buffer ─borrow─▸ parser ─return─▸ ring

Whatever the returns do to the ring, the two agree as long as the kernel receives into no buffer
that a completion still holds (`worker_of_bufferedRun`).
-/

namespace YServer

open Machinery

/-! ## Completions without their packets -/

/-- A completion as the kernel posts it: the bytes are in the buffer. -/
def Completion.bare : Completion → Completion
  | .recv conn res _ => .recv conn res []
  | completion => completion

/-- …with the bytes found there. -/
def Completion.load (bytes : Bytes) : Completion → Completion
  | .recv conn res packet => .recv conn res (if 0 < res then bytes else packet)
  | completion => completion

/-- The result of a reception is the length of what was received. -/
def Completion.Whole : Completion → Prop
  | .recv _ res packet => (packet.length : ℤ) = max res 0
  | _ => True

/-- The packets in the completion queue. -/
def Worker.packets (w : Worker) : List Bytes :=
  w.cq.filterMap fun completion => completion.packet.map Prod.snd

def Worker.withCq (w : Worker) (cq : List Completion) : Worker := { w with cq := cq }

def Worker.bare (w : Worker) : Worker := w.withCq (w.cq.map Completion.bare)

namespace RingState

/-- The kernel receives a packet into the buffer of the entry at its head. -/
def fill (s : RingState) (conn : ℕ) (packet : Bytes) : RingState :=
  { s with
    head := s.head + 1
    held := s.held ++ [⟨conn, s.headEntry.bid, packet.length, false⟩] : RingState }.receive
      s.headEntry.addr packet

/-- What `handle_client` reads for the first completion that holds a buffer… -/
def front (s : RingState) : Bytes :=
  match s.held with
  | h :: _ => s.buffers.contents h
  | [] => []

/-- …and the buffers once it has borrowed and returned that one. -/
def handBack (s : RingState) : RingState :=
  match s.held with
  | h :: held =>
    { s with
      buffers := (s.buffers.borrowBuffer h.bid h.size).1.returnBuffer h.bid
      held := held }
  | [] => s

end RingState

/-! ## The worker with its buffers -/

/-- A worker whose completions carry no packets, and the buffers of its thread. -/
structure BufferedWorker where
  worker : Worker
  ring : RingState

namespace BufferedWorker

/-- The worker with the packet of the completion it dispatches next. -/
def loaded (s : BufferedWorker) : Worker :=
  match s.worker.cq with
  | completion :: cq => s.worker.withCq (completion.load s.ring.front :: cq)
  | [] => s.worker

/-- The buffers after that dispatch. -/
def given (s : BufferedWorker) : RingState :=
  match s.worker.cq with
  | completion :: _ => if completion.packet.isSome then s.ring.handBack else s.ring
  | [] => s.ring

/-- The buffers after a reception on the `j`-th request: a packet needs an entry it fits. -/
def received (s : BufferedWorker) (j : ℕ) (res : ℤ) (packet : Bytes) : Option RingState :=
  if 0 < res then
    match s.worker.kernel[j]? with
    | some ⟨.recv conn _, _⟩ =>
      if s.ring.head < s.ring.tail ∧ packet.length ≤ s.ring.headEntry.len then
        some (s.ring.fill conn packet)
      else none
    | _ => none
  else some s.ring

/-- One step, a fault again in the state before the dispatch that made it. -/
def step (s : BufferedWorker) (a : WorkerAction) : Option BufferedWorker :=
  match a with
  | .completeRecv j res packet =>
    (s.received j res packet).bind fun ring => (s.worker.step a).map fun w => ⟨w.bare, ring⟩
  | .dispatch _ =>
    (s.loaded.step a).map fun w => ⟨w.bare, if w.fault.isSome then s.ring else s.given⟩
  | _ => (s.worker.step a).map fun w => ⟨w.bare, s.ring⟩

/-- The condition on one action: the kernel receives into no buffer that is held. -/
def Fresh (s : BufferedWorker) : WorkerAction → Prop
  | .completeRecv _ res _ => 0 < res → s.ring.headEntry.bid ∉ s.ring.heldIds
  | _ => True

/-- The kernel has a buffer for a packet. -/
def HasBuffer (s : BufferedWorker) : WorkerAction → Prop
  | .completeRecv _ res _ => 0 < res → s.ring.head < s.ring.tail
  | _ => True

/-- **The next packet is handled in a turn of `handle_client`** on the buffers: the parser gets the
packet, its requests are served, and the buffers are those after the dispatch. -/
def TakesTurn (s : BufferedWorker) (w : Worker) : Prop :=
  ∀ (conn : ℕ) (res : ℤ) (packet : Bytes) (rest : List Completion),
    w.cq = .recv conn res packet :: rest → ∀ (h : Handler) (c : RecvCompletion h),
    h.rawHttpRequest = (w.conns conn).rawHttpRequest → h.buffers = s.ring.buffers →
    c.CarriesBuffer → c.res.toInt = res → (∀ buffer ∈ s.ring.held.head?, c.bufferId = buffer.bid) →
      (fun turn => (turn.handler.rawHttpRequest, turn.handler.buffers, turn.packets, turn.requests,
          turn.leaves)) <$> handleClientTurn h c.res c.flags
        = (fun x => (x.2, s.given.buffers, [packet], x.1.toList, false))
          <$> parsePacket (w.conns conn).rawHttpRequest packet

/-- **The worker's completions carry what the buffers hold.** -/
structure Stores (s : BufferedWorker) (w : Worker) : Prop where
  worker : s.worker = w.bare
  packets : List.Forall₂ (fun h packet => s.ring.buffers.contents h = packet) s.ring.held w.packets

end BufferedWorker

/-- A worker and the buffers its constructor registers. -/
def bufferedSystem (memory : IoUringBufRing) : System BufferedWorker WorkerAction where
  init := ⟨workerSystem.init, ⟨registerBufferRing memory bufferRingSize bufferSize, 0, []⟩⟩
  step := BufferedWorker.step

/-! ## What is behind the queue does not matter -/

theorem Completion.bare_bare (c : Completion) : c.bare.bare = c.bare := by
  cases c <;> rfl

namespace Worker

variable (w : Worker) (cq : List Completion)

theorem map_bare_bare :
    (w.cq.map Completion.bare).map Completion.bare = w.cq.map Completion.bare := by
  rw [List.map_map]
  exact List.map_congr_left fun c _ => c.bare_bare

/-- Workers that differ in the packets of their completions only. -/
theorem bare_eq {w u : Worker} (h : u = w.withCq u.cq)
    (hcq : u.cq.map Completion.bare = w.cq.map Completion.bare) : w.bare = u.bare := by
  rw [bare, bare, hcq, h]
  rfl

theorem sends_withCq : (w.withCq cq).sends = w.sends :=
  rfl

theorem conns_withCq : (w.withCq cq).conns = w.conns :=
  rfl

theorem prepare_withCq (request : Request) :
    (w.withCq cq).prepare request = (·.withCq cq) <$> w.prepare request := by
  rw [prepare, prepare]
  change (if w.sq.length < _ then _ else _) = _
  split <;> rfl

theorem recv_withCq (conn : ℕ) : (w.withCq cq).recv conn = (·.withCq cq) <$> w.recv conn :=
  prepare_withCq w cq _

theorem send_withCq (conn : ℕ) (message : Bytes) :
    (w.withCq cq).send conn message = (·.withCq cq) <$> w.send conn message := by
  rw [send, send]
  cases sendTurn message.length 0 with
  | awaiting offset => exact prepare_withCq (w.startSend ⟨conn, message, 0, true, false, 0⟩) cq _
  | returned value => rfl

theorem serve_withCq (conn : ℕ) (replies : List Bytes) :
    (w.withCq cq).serve conn replies = (·.withCq cq) <$> w.serve conn replies := by
  induction replies generalizing w with
  | nil => rfl
  | cons message replies ih =>
    simp only [serve, List.foldlM_cons, map_bind, send_withCq, bind_map_left]
    exact congrArg _ (funext fun u => ih u)

theorem resumeSend_withCq (k : ℕ) (res : ℤ) :
    (w.withCq cq).resumeSend k res = (·.withCq cq) <$> w.resumeSend k res := by
  rw [resumeSend, resumeSend]
  simp only [sends_withCq]
  cases sendResumed (w.sends k).message.length (w.sends k).bytesSent res with
  | awaiting offset =>
    exact prepare_withCq (w.setSend k { w.sends k with released := true, bytesSent := offset }) cq _
  | returned value => rfl

theorem handleClient_withCq (conn : ℕ) (res : ℤ) (packet : Bytes) (replies : List Bytes) :
    (w.withCq cq).handleClient conn res packet replies
      = (·.withCq cq) <$> w.handleClient conn res packet replies := by
  rw [handleClient, handleClient]
  split_ifs
  · rfl
  · rfl
  · simp only [conns_withCq]
    cases hparse : parsePacket (w.conns conn).rawHttpRequest packet with
    | error fault => rfl
    | ok result =>
      rcases result with ⟨_ | request, raw⟩
      · exact recv_withCq (w.setRaw conn raw) cq conn
      · simp only [map_bind]
        refine (congrArg (· >>= _) (serve_withCq (w.setRaw conn raw) cq conn replies)).trans ?_
        rw [bind_map_left]
        exact congrArg _ (funext fun u => recv_withCq u cq conn)

theorem acceptClient_withCq (res : ℤ) (more : Bool) :
    (w.withCq cq).acceptClient res more = (·.withCq cq) <$> w.acceptClient res more := by
  have hrest : ∀ u : Worker, (if res = -1 then .ok (u.withCq cq)
      else ((u.withCq cq).connect res).recv (u.withCq cq).connCount : Except Fault Worker)
        = (·.withCq cq) <$> (if res = -1 then .ok u else (u.connect res).recv u.connCount) := by
    intro u
    split_ifs
    · rfl
    · exact recv_withCq (u.connect res) cq u.connCount
  rw [acceptClient, acceptClient, map_bind]
  cases more with
  | true => exact hrest w
  | false =>
    simp only [Bool.false_eq_true, if_false, prepare_withCq, bind_map_left]
    exact congrArg _ (funext hrest)

/-- **A dispatch neither reads nor writes the queue behind its completion.** -/
theorem dispatch_withCq (replies : List Bytes) (completion : Completion) :
    (w.withCq cq).dispatch replies completion
      = (·.withCq cq) <$> w.dispatch replies completion := by
  have halive : (w.withCq cq).alive completion.tag = w.alive completion.tag := by
    cases completion <;> rfl
  rw [dispatch, dispatch, halive]
  split_ifs
  · rfl
  · cases completion <;> rfl
  · cases completion with
    | accept res more => exact acceptClient_withCq w cq res more
    | recv conn res packet => exact handleClient_withCq w cq conn res packet replies
    | send k res => exact resumeSend_withCq w cq k res

/-- …so it may be another one. -/
theorem dispatch_cqeSeen (rest rest' : List Completion) (left : ℕ) (replies : List Bytes)
    (completion : Completion) : ((w.withCq cq).cqeSeen rest left).dispatch replies completion
      = (·.withCq rest) <$> (w.cqeSeen rest' left).dispatch replies completion :=
  dispatch_withCq (w.cqeSeen rest' left) rest replies completion

/-- **What stands in the queue for its packets only matters where it is dispatched.** -/
theorem step_of_withCq {w u : Worker} {cq : List Completion} {a : WorkerAction}
    (hbare : cq.map Completion.bare = w.cq.map Completion.bare)
    (hfront : ∀ replies, a = .dispatch replies → cq.head? = w.cq.head?)
    (hst : (w.withCq cq).step a = some u) : ∃ w', w.step a = some w' ∧ w'.bare = u.bare := by
  obtain ⟨hfault, hstepped⟩ := stepped_of_step hst
  have hlength : cq.length = w.cq.length := by
    rw [← List.length_map Completion.bare, hbare, List.length_map]
  have hconcat : ∀ completion, (cq ++ [completion]).map Completion.bare
      = (w.cq ++ [completion]).map Completion.bare := fun completion => by
    rw [List.map_append, List.map_append, hbare]
  cases hstepped with
  | submit hloop => exact ⟨_, step_of_stepped hfault (.submit hloop), bare_eq rfl hbare⟩
  | collect hloop hcq =>
    have hne : w.cq ≠ [] := fun hnil => hcq (List.eq_nil_of_length_eq_zero (hlength.trans (by
      rw [hnil]; rfl)))
    refine ⟨{ w with loop := .batch cq.length }, ?_, bare_eq rfl hbare⟩
    rw [hlength]
    exact step_of_stepped hfault (.collect hloop hne)
  | @dispatch replies left completion rest u hloop hcq hok =>
    obtain rfl : cq = completion :: rest := hcq
    obtain ⟨rest', hcq'⟩ : ∃ rest', w.cq = completion :: rest' :=
      List.head?_eq_some_iff.mp (hfront replies rfl).symm
    rw [dispatch_cqeSeen w _ rest rest'] at hok
    cases hdispatch : (w.cqeSeen rest' left).dispatch replies completion with
    | error fault => rw [hdispatch] at hok; cases hok
    | ok w' =>
      rw [hdispatch] at hok
      obtain rfl := Except.ok.inj hok
      refine ⟨w', step_of_stepped hfault (.dispatch hloop hcq' hdispatch), bare_eq rfl ?_⟩
      rw [(SameKernel.dispatch hdispatch).cq]
      rw [hcq'] at hbare
      exact (List.cons.inj hbare).2
  | @fault replies left completion rest fault hloop hcq herr =>
    obtain rfl : cq = completion :: rest := hcq
    obtain ⟨rest', hcq'⟩ : ∃ rest', w.cq = completion :: rest' :=
      List.head?_eq_some_iff.mp (hfront replies rfl).symm
    rw [dispatch_cqeSeen w _ rest rest'] at herr
    cases hdispatch : (w.cqeSeen rest' left).dispatch replies completion with
    | ok w' => rw [hdispatch] at herr; cases herr
    | error fault' =>
      rw [hdispatch] at herr
      obtain rfl := Except.error.inj herr
      exact ⟨_, step_of_stepped hfault (.fault hloop hcq' hdispatch), bare_eq rfl hbare⟩
  | completeAccept hj hroom hfd =>
    exact ⟨_, step_of_stepped hfault (.completeAccept hj (hlength ▸ hroom) hfd),
      bare_eq rfl (hconcat _)⟩
  | completeRecv hj hroom hanswer =>
    exact ⟨_, step_of_stepped hfault (.completeRecv hj (hlength ▸ hroom) hanswer),
      bare_eq rfl (hconcat _)⟩
  | completeSend hj hroom hanswer =>
    exact ⟨_, step_of_stepped hfault (.completeSend hj (hlength ▸ hroom) hanswer),
      bare_eq rfl (hconcat _)⟩

/-- Neither worker can do more than the other. -/
theorem isSome_step_withCq {w : Worker} {cq : List Completion} {a : WorkerAction}
    (hbare : cq.map Completion.bare = w.cq.map Completion.bare)
    (hfront : ∀ replies, a = .dispatch replies → cq.head? = w.cq.head?) :
    ((w.withCq cq).step a).isSome ↔ (w.step a).isSome := by
  rw [Option.isSome_iff_exists, Option.isSome_iff_exists]
  constructor
  · rintro ⟨u, hu⟩
    obtain ⟨w', hw', -⟩ := step_of_withCq hbare hfront hu
    exact ⟨w', hw'⟩
  · rintro ⟨u, hu⟩
    have hback : ((w.withCq cq).withCq w.cq).step a = some u := hu
    obtain ⟨w', hw', -⟩ :=
      step_of_withCq hbare.symm (fun replies h => (hfront replies h).symm) hback
    exact ⟨w', hw'⟩

/-! ### The packets in the queue -/

theorem packets_concat {w w' : Worker} {completion : Completion}
    (h : w'.cq = w.cq ++ [completion]) :
    w'.packets = w.packets ++ (completion.packet.map Prod.snd).toList := by
  rw [packets, h, List.filterMap_append]
  cases hpacket : completion.packet <;> simp [hpacket, packets]

theorem packets_of_cons {w : Worker} {completion : Completion} {rest : List Completion}
    (h : w.cq = completion :: rest) : w.packets = (completion.packet.map Prod.snd).toList
      ++ rest.filterMap fun c => c.packet.map Prod.snd := by
  rw [packets, h]
  cases hpacket : completion.packet <;> simp [hpacket]

end Worker

/-! ## The ring -/

namespace RingState

/-- A borrow and a return of the same buffer. -/
theorem handBack_of_idle {s : RingState} {h : HeldBuffer} {held : List HeldBuffer}
    (hheld : s.held = h :: held) (hidle : h.borrowed = false) :
    (s.step (.borrow 0)).bind (fun r => r.step (.giveBack 0)) = some s.handBack := by
  simp [step, handBack, hheld, hidle, BufferRing.borrowBuffer]

end RingState

namespace MemoryState

/-- A buffer handed back holds nobody's packet any more. -/
theorem exists_handBack {s : MemoryState} {h : HeldBuffer} {held : List HeldBuffer}
    (hheld : s.ring.held = h :: held) (hidle : h.borrowed = false) :
    ∃ u, s.step (.borrow 0) = some u ∧
      u.step (.giveBack 0) = some ⟨s.ring.handBack, s.packets.eraseIdx 0⟩ := by
  obtain ⟨r, hborrow, hgive⟩ :=
    Option.bind_eq_some_iff.mp (RingState.handBack_of_idle hheld hidle)
  exact ⟨{ s with ring := r }, by rw [step, hborrow]; rfl, by rw [step, hgive]; rfl⟩

end MemoryState

/-! ## The simulation -/

namespace Completion

variable {c : Completion}

theorem load_of_packet_eq_none (h : c.packet = none) (bytes : Bytes) : c.load bytes = c := by
  cases c with
  | recv conn res bytes' =>
    have hres : ¬ 0 < res := fun hpos => by
      cases (if_pos hpos).symm.trans h
    rw [load, if_neg hres]
  | _ => rfl

theorem load_bare {x : ℕ × Bytes} (h : c.packet = some x) : c.bare.load x.2 = c := by
  cases c with
  | recv conn res packet =>
    obtain ⟨hpos, heq⟩ := Option.ite_none_right_eq_some.mp h
    obtain rfl := Option.some.inj heq
    rw [bare, load, if_pos hpos]
  | _ => cases h

/-- A reception without a packet has received nothing. -/
theorem Whole.bare_eq (h : c.Whole) (hnone : c.packet = none) : c.bare = c := by
  cases c with
  | recv conn res packet =>
    have hres : ¬ 0 < res := fun hpos => by
      cases (if_pos hpos).symm.trans hnone
    have hlength : (packet.length : ℤ) = max res 0 := h
    rw [max_eq_right (Int.not_lt.mp hres)] at hlength
    rw [List.eq_nil_of_length_eq_zero (Int.ofNat_eq_zero.mp hlength)]
    rfl
  | _ => rfl

theorem isSome_packet_bare (c : Completion) : c.bare.packet.isSome = c.packet.isSome := by
  cases c with
  | recv conn res packet => by_cases hpos : 0 < res <;> simp [bare, Completion.packet, hpos]
  | _ => rfl

end Completion

namespace BufferedWorker

/-- The invariant: what is in the buffers, and that nothing is borrowed between two steps. -/
structure Sound (s : BufferedWorker) (w : Worker) : Prop where
  stores : s.Stores w
  laidOut : MemoryState.LaidOut 12 bufferSize ⟨s.ring, w.packets⟩
  idle : ∀ h ∈ s.ring.held, h.borrowed = false
  whole : ∀ completion ∈ w.cq, completion.Whole

variable {s t : BufferedWorker} {w w' : Worker}

/-- The kernel posts what needs no buffer, or the worker submits or collects. -/
theorem Sound.keep (h : s.Sound w) (hpackets : w'.packets = w.packets)
    (hwhole : ∀ completion ∈ w'.cq, completion.Whole) : Sound ⟨w'.bare, s.ring⟩ w' where
  stores := ⟨rfl, hpackets ▸ h.stores.packets⟩
  laidOut := hpackets ▸ h.laidOut
  idle := h.idle
  whole := hwhole

/-- The buffer of the next packet is the first one that is held. -/
theorem Sound.exists_held (h : s.Sound w) {completion : Completion} {rest : List Completion}
    (hcq : w.cq = completion :: rest) {x : ℕ × Bytes} (hpacket : completion.packet = some x) :
    ∃ buffer held, s.ring.held = buffer :: held ∧ s.ring.buffers.contents buffer = x.2 ∧
      buffer.size = x.2.length := by
  have hpackets := Worker.packets_of_cons hcq
  rw [hpacket] at hpackets
  have hholds := h.stores.packets
  have hsizes : List.Forall₂ _ s.ring.held w.packets := h.laidOut.received
  rw [hpackets] at hholds hsizes
  obtain ⟨buffer, held, hcontents, -, hheld⟩ := List.forall₂_cons_right_iff.mp hholds
  rw [hheld] at hsizes
  exact ⟨buffer, held, hheld, hcontents, (List.forall₂_cons.mp hsizes).1.1⟩

/-- The packet the buffers hold for the next completion is the one it carries. -/
theorem Sound.front (h : s.Sound w) {completion : Completion} {rest : List Completion}
    (hcq : w.cq = completion :: rest) : completion.bare.load s.ring.front = completion := by
  cases hpacket : completion.packet with
  | none =>
    have hbare := (h.whole completion (hcq ▸ List.mem_cons_self)).bare_eq hpacket
    rw [hbare, Completion.load_of_packet_eq_none hpacket]
  | some x =>
    obtain ⟨buffer, held, hheld, hcontents, -⟩ := h.exists_held hcq hpacket
    rw [RingState.front, hheld]
    simp only [hcontents]
    exact Completion.load_bare hpacket

/-- **The next completion gets back its packet.** -/
theorem Sound.loaded (h : s.Sound w) : ∃ cq, s.loaded = w.withCq cq ∧
    cq.map Completion.bare = w.cq.map Completion.bare ∧ cq.head? = w.cq.head? := by
  cases hcq : w.cq with
  | nil =>
    refine ⟨[], ?_, rfl, rfl⟩
    rw [BufferedWorker.loaded, h.stores.worker, Worker.bare, hcq]
    rfl
  | cons completion rest =>
    refine ⟨completion :: rest.map Completion.bare, ?_, ?_, rfl⟩
    · rw [BufferedWorker.loaded, h.stores.worker, Worker.bare, hcq]
      change w.withCq (completion.bare.load s.ring.front :: _) = _
      rw [h.front hcq]
    · rw [List.map_cons, List.map_cons, List.map_map]
      exact congrArg _ (List.map_congr_left fun c _ => c.bare_bare)

theorem Sound.given_eq (h : s.Sound w) {completion : Completion} {rest : List Completion}
    (hcq : w.cq = completion :: rest) :
    s.given = if completion.packet.isSome then s.ring.handBack else s.ring := by
  rw [BufferedWorker.given, h.stores.worker, Worker.bare, hcq]
  change (if completion.bare.packet.isSome then _ else _) = _
  rw [completion.isSome_packet_bare]

/-- **The dispatched completion's buffer is handed back.** -/
theorem Sound.given (h : s.Sound w) {completion : Completion} (hcq : w.cq = completion :: w'.cq) :
    Sound ⟨w'.bare, s.given⟩ w' := by
  have hwhole : ∀ c ∈ w'.cq, c.Whole := fun c hc => h.whole c (hcq ▸ List.mem_cons_of_mem _ hc)
  have hpackets := Worker.packets_of_cons hcq
  rw [h.given_eq hcq]
  cases hpacket : completion.packet with
  | none =>
    rw [hpacket] at hpackets
    exact h.keep hpackets.symm hwhole
  | some x =>
    rw [hpacket] at hpackets
    obtain ⟨buffer, held, hheld, -⟩ := h.exists_held hcq hpacket
    obtain ⟨u, hborrow, hgive⟩ := MemoryState.exists_handBack (s := ⟨s.ring, w.packets⟩) hheld
      (h.idle buffer (hheld ▸ List.mem_cons_self))
    have hlaid := MemoryState.laidOut_step (MemoryState.laidOut_step h.laidOut hborrow) hgive
    have hreads : MemoryState.ReadsPackets ⟨s.ring, w.packets⟩ := h.stores.packets
    have hreads' := MemoryState.readsPackets_giveBack
      (MemoryState.readsPackets_borrow hreads hborrow) hgive
    rw [hpackets] at hlaid hreads'
    have hrest : s.ring.handBack.held = held := by rw [RingState.handBack, hheld]
    refine ⟨⟨rfl, hreads'⟩, hlaid, fun b hb => h.idle b ?_, hwhole⟩
    rw [if_pos (by rfl)] at hb
    exact hheld ▸ List.mem_cons_of_mem _ (hrest ▸ hb)

/-- **A dispatched packet is a turn of `handle_client`.** -/
theorem Sound.takesTurn (h : s.Sound w) : s.TakesTurn w := by
  intro conn res packet rest hcq handler c hraw hbuffers hcarries hres hid
  obtain ⟨hpos, -, -⟩ := c.selects hcarries
  rw [hres] at hpos
  have hpacket : (.recv conn res packet : Completion).packet = some (conn, packet) :=
    if_pos (Int.lt_of_lt_of_le Int.one_pos hpos)
  have hlength : (.recv conn res packet : Completion).Whole :=
    h.whole _ (hcq ▸ List.mem_cons_self)
  rw [Completion.Whole] at hlength
  obtain ⟨buffer, held, hheld, hcontents, hsize⟩ := h.exists_held hcq hpacket
  have hbid : c.bufferId = buffer.bid := hid buffer (by rw [hheld]; rfl)
  have hread : c.packet = packet := by
    have htoNat : c.res.toInt.toNat = buffer.size := by
      rw [hres, hsize]
      change res.toNat = packet.length
      omega
    rw [RecvCompletion.packet, htoNat, hbid, hbuffers]
    exact hcontents
  have hgiven : s.given = s.ring.handBack := by
    rw [h.given_eq hcq, hpacket]
    rfl
  have hback : s.ring.handBack.buffers
      = (s.ring.buffers.borrowBuffer buffer.bid buffer.size).1.returnBuffer buffer.bid := by
    rw [RingState.handBack, hheld]
  rw [c.handleClientTurn_of_carries hcarries, hread, hraw, hgiven, hback]
  cases parsePacket (w.conns conn).rawHttpRequest packet with
  | error fault => rfl
  | ok result =>
    rw [← hbuffers, ← hbid]
    rfl

/-- **A packet comes into a buffer that nobody holds**, or nothing comes. -/
theorem Sound.received (h : s.Sound w) {j conn : ℕ} {res : ℤ} {packet : Bytes} {ring : RingState}
    {target : Option ℕ} (hring : s.received j res packet = some ring)
    (hfresh : 0 < res → s.ring.headEntry.bid ∉ s.ring.heldIds)
    (hanswer : Worker.RecvAnswer target res packet)
    (hcq : w'.cq = w.cq ++ [.recv conn res packet]) : Sound ⟨w'.bare, ring⟩ w' := by
  have hpackets := Worker.packets_concat hcq
  have hwhole : ∀ c ∈ w'.cq, c.Whole := by
    rw [hcq]
    exact List.forall_mem_append.mpr ⟨h.whole, List.forall_mem_singleton.mpr hanswer.1⟩
  rw [BufferedWorker.received] at hring
  by_cases hpos : 0 < res
  · rw [if_pos hpos] at hring
    rw [Completion.packet, if_pos hpos] at hpackets
    split at hring
    case h_2 => cases hring
    case h_1 conn' fd target' hj =>
      obtain ⟨⟨hlt, hlen⟩, heq⟩ := Option.ite_none_right_eq_some.mp hring
      obtain rfl := Option.some.inj heq
      have hne : packet ≠ [] := by
        rintro rfl
        have hlength := hanswer.1
        rw [max_eq_left hpos.le] at hlength
        exact hpos.ne hlength
      have hselect : MemoryState.step ⟨s.ring, w.packets⟩ (.select conn' packet)
          = some (MemoryState.afterSelect ⟨s.ring, w.packets⟩ conn' packet) :=
        MemoryState.step_select_eq_some.mpr ⟨hne, hlen, hlt, rfl⟩
      have hreads : (MemoryState.afterSelect ⟨s.ring, w.packets⟩ conn' packet).ReadsPackets :=
        MemoryState.readsPackets_select h.laidOut h.stores.packets (hfresh hpos)
      have hlaid := MemoryState.laidOut_step h.laidOut hselect
      have heq : MemoryState.afterSelect ⟨s.ring, w.packets⟩ conn' packet
          = ⟨s.ring.fill conn' packet, w'.packets⟩ := by rw [hpackets]; rfl
      rw [heq] at hreads hlaid
      exact ⟨⟨rfl, hreads⟩, hlaid, List.forall_mem_append.mpr
        ⟨h.idle, List.forall_mem_singleton.mpr rfl⟩, hwhole⟩
  · rw [if_neg hpos] at hring
    rw [Completion.packet, if_neg hpos] at hpackets
    obtain rfl := Option.some.inj hring
    exact h.keep (hpackets.trans (List.append_nil _)) hwhole

/-- What reads no packet is a step of the worker. -/
theorem Sound.exists_step (h : s.Sound w) {a : WorkerAction} {u : Worker}
    (ha : ∀ replies, a ≠ .dispatch replies) (hu : s.worker.step a = some u) :
    ∃ w', w.step a = some w' ∧ w'.bare = u.bare := by
  rw [h.stores.worker] at hu
  exact Worker.step_of_withCq w.map_bare_bare (fun replies heq => absurd heq (ha replies)) hu

/-- **A step of the buffered worker is one of the worker.** -/
theorem Sound.step (h : s.Sound w) {a : WorkerAction} (hst : s.step a = some t)
    (hfresh : s.Fresh a) : ∃ w', w.step a = some w' ∧ t.Sound w' := by
  have hconcat : ∀ completion : Completion, completion.Whole →
      ∀ c ∈ w.cq ++ [completion], c.Whole := fun completion hwhole =>
    List.forall_mem_append.mpr ⟨h.whole, List.forall_mem_singleton.mpr hwhole⟩
  cases a with
  | dispatch replies =>
    obtain ⟨u, hu, rfl⟩ := Option.map_eq_some_iff.mp hst
    obtain ⟨cq, hloaded, hmap, hfront⟩ := h.loaded
    rw [hloaded] at hu
    obtain ⟨w', hw', heq⟩ := Worker.step_of_withCq hmap (fun _ _ => hfront) hu
    have hfault : u.bare.fault = w'.bare.fault := congrArg Worker.fault heq.symm
    refine ⟨w', hw', ?_⟩
    rw [← heq, show u.fault = w'.fault from hfault]
    obtain ⟨hnone, hstepped⟩ := Worker.stepped_of_step hw'
    cases hstepped with
    | dispatch hloop hw hok =>
      have hsame := Worker.SameKernel.dispatch hok
      rw [if_neg (by rw [hsame.fault]; simp [Worker.cqeSeen, hnone])]
      exact h.given (hw.trans (congrArg _ hsame.cq.symm))
    | fault hloop hw herr => exact h.keep rfl h.whole
  | completeRecv j res packet =>
    obtain ⟨ring, hring, hst⟩ := Option.bind_eq_some_iff.mp hst
    obtain ⟨u, hu, rfl⟩ := Option.map_eq_some_iff.mp hst
    obtain ⟨w', hw', heq⟩ := h.exists_step (by simp) hu
    refine ⟨w', hw', heq ▸ ?_⟩
    cases (Worker.stepped_of_step hw').2 with
    | completeRecv hj hroom hanswer => exact h.received hring hfresh hanswer rfl
  | submit =>
    obtain ⟨u, hu, rfl⟩ := Option.map_eq_some_iff.mp hst
    obtain ⟨w', hw', heq⟩ := h.exists_step (by simp) hu
    refine ⟨w', hw', heq ▸ ?_⟩
    cases (Worker.stepped_of_step hw').2 with
    | submit hloop => exact h.keep rfl h.whole
  | collect =>
    obtain ⟨u, hu, rfl⟩ := Option.map_eq_some_iff.mp hst
    obtain ⟨w', hw', heq⟩ := h.exists_step (by simp) hu
    refine ⟨w', hw', heq ▸ ?_⟩
    cases (Worker.stepped_of_step hw').2 with
    | collect hloop hcq => exact h.keep rfl h.whole
  | completeAccept j res more =>
    obtain ⟨u, hu, rfl⟩ := Option.map_eq_some_iff.mp hst
    obtain ⟨w', hw', heq⟩ := h.exists_step (by simp) hu
    refine ⟨w', hw', heq ▸ ?_⟩
    cases (Worker.stepped_of_step hw').2 with
    | completeAccept hj hroom hfd =>
      exact h.keep ((Worker.packets_concat rfl).trans (List.append_nil _)) (hconcat _ trivial)
  | completeSend j res bytes =>
    obtain ⟨u, hu, rfl⟩ := Option.map_eq_some_iff.mp hst
    obtain ⟨w', hw', heq⟩ := h.exists_step (by simp) hu
    refine ⟨w', hw', heq ▸ ?_⟩
    cases (Worker.stepped_of_step hw').2 with
    | completeSend hj hroom hanswer =>
      exact h.keep ((Worker.packets_concat rfl).trans (List.append_nil _)) (hconcat _ trivial)

/-- **The buffered worker can do what the worker can**, except that a packet needs a buffer. -/
theorem Sound.isSome_step (h : s.Sound w) (a : WorkerAction) :
    (s.step a).isSome ↔ (w.step a).isSome ∧ s.HasBuffer a := by
  have hworker : ∀ {a}, (∀ replies, a ≠ .dispatch replies) →
      ((s.worker.step a).isSome ↔ (w.step a).isSome) := fun ha => by
    rw [h.stores.worker]
    exact Worker.isSome_step_withCq w.map_bare_bare fun replies heq => absurd heq (ha replies)
  cases a with
  | dispatch replies =>
    obtain ⟨cq, hloaded, hmap, hfront⟩ := h.loaded
    rw [BufferedWorker.step, Option.isSome_map, hloaded]
    exact (Worker.isSome_step_withCq hmap fun _ _ => hfront).trans (and_iff_left trivial).symm
  | completeRecv j res packet =>
    have hreceived : ∀ u, w.step (.completeRecv j res packet) = some u →
        ((s.received j res packet).isSome ↔ s.HasBuffer (.completeRecv j res packet)) := by
      intro u hu
      cases (Worker.stepped_of_step hu).2 with
      | completeRecv hj hroom hanswer =>
        have hj' : s.worker.kernel[j]? = w.kernel[j]? := by rw [h.stores.worker]; rfl
        obtain ⟨bid, -, hentry⟩ := h.laidOut.headEntry
        have hlen : packet.length ≤ s.ring.headEntry.len := by
          have hentry' : s.ring.headEntry = ⟨bid, bufferSize, bid⟩ := hentry
          have hlength := hanswer.1
          have hres := hanswer.2.1
          rw [hentry']
          change packet.length ≤ bufferSize
          omega
        rw [BufferedWorker.received, HasBuffer, hj', hj]
        by_cases hpos : 0 < res <;> simp [hpos, hlen]
    have hsame := hworker (a := .completeRecv j res packet) (by simp)
    cases hw : w.step (.completeRecv j res packet) with
    | none =>
      rw [hw] at hsame
      have hnone : s.worker.step (.completeRecv j res packet) = none := by simpa using hsame
      simp [BufferedWorker.step, hnone]
    | some u =>
      rw [hw] at hsame
      obtain ⟨v, hv⟩ := Option.isSome_iff_exists.mp (hsame.mpr rfl)
      rw [← hreceived u hw, BufferedWorker.step, hv]
      cases s.received j res packet <;> simp
  | submit => simpa [BufferedWorker.step, HasBuffer] using hworker (by simp)
  | collect => simpa [BufferedWorker.step, HasBuffer] using hworker (by simp)
  | completeAccept j res more => simpa [BufferedWorker.step, HasBuffer] using hworker (by simp)
  | completeSend j res bytes => simpa [BufferedWorker.step, HasBuffer] using hworker (by simp)

theorem sound_init (memory : IoUringBufRing) :
    (bufferedSystem memory).init.Sound workerSystem.init where
  stores := ⟨rfl, .nil⟩
  laidOut := (intact_init 12 bufferSize memory).laidOut
  idle := fun _ hmem => absurd hmem List.not_mem_nil
  whole := fun _ hmem => absurd hmem List.not_mem_nil

end BufferedWorker

/-- **The worker with its buffers does what the worker does**, packet for packet, in every run in
which the kernel receives into no buffer that a completion still holds; and each dispatch of a
packet is a turn of `handle_client` on the buffers. -/
theorem worker_of_bufferedRun (memory : IoUringBufRing) {run : List WorkerAction}
    {s : BufferedWorker} (hrun : (bufferedSystem memory).run run = some s)
    (hfresh : ∀ m ∈ (bufferedSystem memory).moves run, m.src.Fresh m.act) :
    ∃ w, workerSystem.run run = some w ∧ s.Stores w ∧ s.TakesTurn w ∧
      ∀ a, (s.step a).isSome ↔ (w.step a).isSome ∧ s.HasBuffer a := by
  obtain ⟨w, hw, hsound⟩ := System.run_of_simulates (T := workerSystem) BufferedWorker.Sound
    (BufferedWorker.sound_init memory) (fun s a t w h hst ha => h.step hst ha) hrun hfresh
  exact ⟨w, hw, hsound.stores, hsound.takesTurn, hsound.isSome_step⟩

/-! ## The first packet -/

/-- A client connects… -/
def connects : List WorkerAction :=
  [.submit, .completeAccept 0 5 true, .collect, .dispatch [], .submit]

/-- …and sends the beginning of a request. -/
def firstPacket : WorkerAction := .completeRecv 1 3 (ascii "GET")

/-- Memory as it may come from the allocator. -/
def cleared : IoUringBufRing := ⟨fun _ => ⟨0, 0, 0⟩, 0⟩

theorem worker_of_firstPacket :
    ∃ s, (bufferedSystem cleared).run (connects ++ [firstPacket]) = some s ∧
      ∃ w, workerSystem.run (connects ++ [firstPacket]) = some w ∧ s.Stores w ∧ s.TakesTurn w ∧
        ∀ a, (s.step a).isSome ↔ (w.step a).isSome ∧ s.HasBuffer a := by
  obtain ⟨w₀, hconnects, u, hu, htarget⟩ : ∃ w₀,
      (bufferedSystem cleared).run connects = some ⟨w₀, (bufferedSystem cleared).init.ring⟩ ∧
        ∃ u, w₀.step firstPacket = some u ∧ w₀.kernel[1]? = some ⟨.recv 0 5, some 0⟩ :=
    ⟨_, rfl, _, rfl, rfl⟩
  have hbuffer : (bufferedSystem cleared).init.ring.head < (bufferedSystem cleared).init.ring.tail ∧
      (ascii "GET").length ≤ (bufferedSystem cleared).init.ring.headEntry.len := by
    obtain ⟨bid, -, hentry⟩ := (intact_init 12 bufferSize cleared).laidOut.headEntry
    have hlen : (bufferedSystem cleared).init.ring.headEntry.len = bufferSize :=
      congrArg IoUringBuf.len hentry
    have htail : (bufferedSystem cleared).init.ring.tail = 4096 := tail_registerBufferRing ..
    exact ⟨by rw [htail]; decide, by rw [hlen]; decide⟩
  have hstep : (bufferedSystem cleared).step ⟨w₀, (bufferedSystem cleared).init.ring⟩ firstPacket
      = some ⟨u.bare, (bufferedSystem cleared).init.ring.fill 0 (ascii "GET")⟩ := by
    change (BufferedWorker.received _ 1 3 (ascii "GET")).bind _ = _
    rw [BufferedWorker.received, if_pos (by decide), htarget]
    simp only [if_pos hbuffer, Option.bind_some, hu, Option.map_some]
  have hrun := System.run_concat _ hconnects hstep
  refine ⟨_, hrun, worker_of_bufferedRun cleared hrun ?_⟩
  rw [System.moves_concat hconnects hstep]
  refine List.forall_mem_append.mpr ⟨fun m hm => ?_, List.forall_mem_singleton.mpr fun _ => ?_⟩
  · have hact := System.act_mem_of_mem_movesFrom _ hm
    simp only [connects, List.mem_cons, List.not_mem_nil, or_false] at hact
    rcases hact with h | h | h | h | h <;> rw [h] <;> trivial
  · exact List.not_mem_nil

end YServer
