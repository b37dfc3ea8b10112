import YServer.BaseNet.BufferedWorker

/-!
# BaseNet/BufferedExchange — what the clients sent, read from the buffers

`BaseNet/Exchange` says how a worker serves a connection from the packets its completions carry.
The worker with its buffers reads them there, so the same holds of it as long as the kernel receives
into no buffer that a completion still holds:

    readings    the moves of the worker with its buffers, each with what the buffers hold then
    reading     the worker at their end, likewise

Without the condition a packet may be overwritten before it is read, and the requests are then not
those that were sent.  It is met as long as each packet is handed on before the next one comes and
no buffer has been used twice (`exists_bufferedRun`).
-/

namespace YServer

open Machinery

/-! ## What the buffers hold -/

/-- The completions, with the packets that the buffers hold for them in their order. -/
def loadAll : List Completion → List Bytes → List Completion
  | [], _ => []
  | completion :: cq, packets =>
    if completion.packet.isSome then
      completion.load (packets.headD []) :: loadAll cq packets.tail
    else completion :: loadAll cq packets

namespace BufferedWorker

/-- The worker, with what the buffers hold for its completions. -/
def reading (s : BufferedWorker) : Worker :=
  s.worker.withCq (loadAll s.worker.cq (s.ring.held.map s.ring.buffers.contents))

end BufferedWorker

/-- The moves of a worker with its buffers, as it reads them. -/
def readings (memory : IoUringBufRing) (run : List WorkerAction) : List WorkerMove :=
  ((bufferedSystem memory).moves run).map (Move.map BufferedWorker.reading)

/-- Every completion gets back its packet — by induction on the queue. -/
theorem loadAll_map_bare {cq : List Completion} (h : ∀ c ∈ cq, c.Whole) :
    loadAll (cq.map Completion.bare) (cq.filterMap fun c => c.packet.map Prod.snd) = cq := by
  induction cq with
  | nil => rfl
  | cons c cq ih =>
    obtain ⟨hwhole, hrest⟩ := List.forall_mem_cons.mp h
    rw [List.map_cons, loadAll, c.isSome_packet_bare]
    cases hpacket : c.packet with
    | none =>
      rw [List.filterMap_cons_none (by rw [hpacket]; rfl), if_neg (by simp), ih hrest,
        hwhole.bare_eq hpacket]
    | some x =>
      rw [List.filterMap_cons_some (b := x.2) (by rw [hpacket]; rfl), if_pos Option.isSome_some,
        List.tail_cons, List.headD_cons, ih hrest, Completion.load_bare hpacket]

namespace BufferedWorker

variable {s t : BufferedWorker} {w : Worker}

/-- **A worker that is stored is the one read.** -/
theorem Sound.reading_eq (h : s.Sound w) : s.reading = w := by
  have hpackets : s.ring.held.map s.ring.buffers.contents = w.packets :=
    List.forall₂_eq_eq_eq ▸ List.forall₂_map_left_iff.mpr h.stores.packets
  rw [reading, hpackets, h.stores.worker]
  change w.withCq (loadAll (w.cq.map Completion.bare) w.packets) = w
  rw [Worker.packets, loadAll_map_bare h.whole]
  rfl

/-- **A step of the buffered worker is one of the worker it reads.** -/
theorem step_reading {a : WorkerAction} (h : s.Sound s.reading) (hst : s.step a = some t)
    (hfresh : s.Fresh a) : s.reading.step a = some t.reading ∧ t.Sound t.reading := by
  obtain ⟨w, hw, hsound⟩ := h.step hst hfresh
  rw [hsound.reading_eq]
  exact ⟨hw, hsound⟩

theorem sound_reading_init (memory : IoUringBufRing) :
    (bufferedSystem memory).init.reading = workerSystem.init ∧
      (bufferedSystem memory).init.Sound (bufferedSystem memory).init.reading := by
  have hinit := sound_init memory
  exact ⟨hinit.reading_eq, hinit.reading_eq ▸ hinit⟩

end BufferedWorker

/-- **The worker with its buffers is the worker it reads**, move for move. -/
theorem reading_of_run (memory : IoUringBufRing) {run : List WorkerAction} {s : BufferedWorker}
    (hrun : (bufferedSystem memory).run run = some s)
    (hfresh : ∀ m ∈ (bufferedSystem memory).moves run, m.src.Fresh m.act) :
    workerSystem.run run = some s.reading ∧ workerSystem.moves run = readings memory run ∧
      s.Sound s.reading :=
  System.moves_of_maps BufferedWorker.reading (fun s => s.Sound s.reading)
    (BufferedWorker.sound_reading_init memory)
    (fun _ _ _ h hst hfresh => BufferedWorker.step_reading h hst hfresh) hrun hfresh

/-- **Every connection is served as if it were alone**, from what the buffers hold: in every run
without a fault in which the kernel receives into no buffer that a completion still holds. -/
theorem servedAlone_of_bufferedRun (memory : IoUringBufRing) {run : List WorkerAction}
    {s : BufferedWorker} (hrun : (bufferedSystem memory).run run = some s)
    (hfresh : ∀ m ∈ (bufferedSystem memory).moves run, m.src.Fresh m.act)
    (hfault : s.worker.fault = none) (t : ℕ) :
    Worker.ServedAlone (readings memory run) s.reading t := by
  obtain ⟨hworker, hmoves, -⟩ := reading_of_run memory hrun hfresh
  rw [← hmoves]
  exact servedAlone_of_run hworker hfault t

/-! ## Packets that come one at a time -/

namespace BufferedWorker

variable {s t : BufferedWorker}

/-- **A step uses up one entry of the ring at most**, and takes none back. -/
theorem head_le_of_step {a : WorkerAction} (hst : s.step a = some t) :
    t.ring.head ≤ s.ring.head + 1 ∧ s.ring.tail ≤ t.ring.tail := by
  cases a with
  | dispatch replies =>
    obtain ⟨w, -, rfl⟩ := Option.map_eq_some_iff.mp hst
    have hgiven : s.given = s.ring ∨ s.given = s.ring.handBack := by
      rw [BufferedWorker.given]
      split
      · split_ifs
        · exact Or.inr rfl
        · exact Or.inl rfl
      · exact Or.inl rfl
    have hback : s.ring.handBack.head = s.ring.head ∧ s.ring.tail ≤ s.ring.handBack.tail := by
      rw [RingState.handBack]
      split
      · exact ⟨rfl, Nat.le_succ _⟩
      · exact ⟨rfl, le_rfl⟩
    change (if w.fault.isSome then s.ring else s.given).head ≤ _ ∧
      _ ≤ (if w.fault.isSome then s.ring else s.given).tail
    split_ifs
    · exact ⟨Nat.le_succ _, le_rfl⟩
    · rcases hgiven with heq | heq <;> rw [heq]
      · exact ⟨Nat.le_succ _, le_rfl⟩
      · exact ⟨hback.1.le.trans (Nat.le_succ _), hback.2⟩
  | completeRecv j res packet =>
    obtain ⟨ring, hring, hst⟩ := Option.bind_eq_some_iff.mp hst
    obtain ⟨w, -, rfl⟩ := Option.map_eq_some_iff.mp hst
    rw [BufferedWorker.received] at hring
    split at hring
    · split at hring
      · obtain ⟨-, heq⟩ := Option.ite_none_right_eq_some.mp hring
        obtain rfl := Option.some.inj heq
        exact ⟨le_rfl, le_rfl⟩
      · cases hring
    · obtain rfl := Option.some.inj hring
      exact ⟨Nat.le_succ _, le_rfl⟩
  | _ =>
    obtain ⟨w, -, rfl⟩ := Option.map_eq_some_iff.mp hst
    exact ⟨Nat.le_succ _, le_rfl⟩

end BufferedWorker

/-- A packet comes when none waits. -/
def Worker.ComesAlone (w : Worker) : WorkerAction → Prop
  | .completeRecv _ res _ => 0 < res → w.packets = []
  | _ => True

instance (w : Worker) : (a : WorkerAction) → Decidable (w.ComesAlone a)
  | .completeRecv _ _ _ => inferInstanceAs (Decidable (_ → _))
  | .submit | .collect | .dispatch _ | .completeAccept _ _ _ | .completeSend _ _ _ =>
    isTrue trivial

/-- **A worker to which packets come one at a time does not notice its buffers**, as long as there
is an unused one for each. -/
theorem exists_bufferedRun (memory : IoUringBufRing) {run : List WorkerAction} {w : Worker}
    (hrun : workerSystem.run run = some w)
    (halone : ∀ m ∈ workerSystem.moves run, m.src.ComesAlone m.act)
    (hlength : run.length ≤ bufferRingSize) : ∃ s, (bufferedSystem memory).run run = some s ∧
      (∀ m ∈ (bufferedSystem memory).moves run, m.src.Fresh m.act) ∧ s.Sound w ∧
      s.ring.head ≤ run.length ∧ bufferRingSize ≤ s.ring.tail := by
  induction run using List.reverseRecOn generalizing w with
  | nil =>
    obtain rfl := Option.some.inj hrun
    exact ⟨_, rfl, fun m hm => absurd hm List.not_mem_nil, BufferedWorker.sound_init memory, le_rfl,
      (tail_registerBufferRing memory bufferSize bufferRingSize).ge⟩
  | append_singleton run a ih =>
    obtain ⟨v, hv, hstep⟩ := System.run_concat_eq_some hrun
    rw [System.moves_concat hv hstep, List.forall_mem_append, List.forall_mem_singleton] at halone
    rw [List.length_append, List.length_singleton] at hlength
    obtain ⟨s, hs, hfresh, hsound, hhead, htail⟩ := ih hv halone.1 (by omega)
    have hbuffer : s.HasBuffer a := by
      cases a with
      | completeRecv j res packet => exact fun _ => by omega
      | _ => trivial
    have hnew : s.Fresh a := by
      cases a with
      | completeRecv j res packet =>
        intro hpos
        have hheld : s.ring.held = [] := by
          have hpackets := hsound.stores.packets
          rw [halone.2 hpos] at hpackets
          exact List.forall₂_nil_right_iff.mp hpackets
        rw [RingState.heldIds, hheld]
        exact List.not_mem_nil
      | _ => trivial
    obtain ⟨t, ht⟩ := Option.isSome_iff_exists.mp ((hsound.isSome_step a).mpr ⟨by
      rw [show v.step a = some w from hstep]; rfl, hbuffer⟩)
    obtain ⟨w', hw', hsound'⟩ := hsound.step ht hnew
    obtain rfl : w' = w := Option.some.inj (hw'.symm.trans hstep)
    obtain ⟨hhead', htail'⟩ := BufferedWorker.head_le_of_step ht
    refine ⟨t, System.run_concat _ hs ht, ?_, hsound', ?_, htail.trans htail'⟩
    · rw [System.moves_concat hs ht]
      exact List.forall_mem_append.mpr ⟨hfresh, List.forall_mem_singleton.mpr hnew⟩
    · rw [List.length_append, List.length_singleton]
      omega

/-! ## Two clients at once -/

/-- The second client's request comes between the two packets of the first one's. -/
def interleavedRun : List WorkerAction :=
  [.submit, .completeAccept 0 5 true, .completeAccept 0 6 true, .collect, .dispatch [],
    .dispatch [], .submit, .completeRecv 1 3 (ascii "GET"), .collect, .dispatch [], .submit,
    .completeRecv 1 19 (getText 98), .collect, .dispatch [ascii "b"], .submit,
    .completeRecv 1 16 (ascii " /a HTTP/1.1\r\n\r\n"), .collect, .dispatch [ascii "a"]]

theorem servedAlone_interleavedRun : ∃ s, (bufferedSystem cleared).run interleavedRun = some s ∧
    s.reading.sentTo 0 = [ascii "a"] ∧
    ∀ t, Worker.ServedAlone (readings cleared interleavedRun) s.reading t := by
  obtain ⟨w, hrun, hfault, hsent⟩ : ∃ w, workerSystem.run interleavedRun = some w ∧
      w.fault = none ∧ w.sentTo 0 = [ascii "a"] := ⟨_, rfl, rfl, rfl⟩
  obtain ⟨s, hs, hfresh, hsound, -⟩ :=
    exists_bufferedRun cleared hrun (by decide +kernel) (by decide)
  obtain rfl := hsound.reading_eq
  exact ⟨s, hs, hsent, servedAlone_of_bufferedRun cleared hs hfresh hfault⟩

end YServer
