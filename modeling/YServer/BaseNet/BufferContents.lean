import YServer.BaseNet.BufferOwnership
import Mathlib.Data.List.Forall2

/-!
# BaseNet/BufferContents — what a completion finds in its buffer

The kernel writes what it received into the buffer of the entry it selects; `handle_client` reads it
later, through the span of `borrow_buffer`.  Between the two the kernel may select any number of
other entries, and must not write this buffer again.  So the bytes a completion reads are those that
were received for it (`MemoryState.ReadsPackets`) exactly as long as the ids are kept apart: a
return out of place leaves an id that the kernel can select while a completion holds it, and the
packets received next overwrite one that is still to be read (`readsPackets_exactFor`).
-/

namespace YServer

open Machinery

/-! ## Buffers with their bytes -/

/-- The kernel writes a packet to the front of the buffer at `addr`. -/
def BufferRing.receive (b : BufferRing) (addr : ℕ) (packet : Bytes) : BufferRing :=
  { b with
    bufferList := b.bufferList.modify addr fun buffer => packet ++ buffer.drop packet.length }

/-- The bytes `handle_client` hands to the parser for a completion. -/
def BufferRing.contents (b : BufferRing) (h : HeldBuffer) : Bytes :=
  let span := (b.borrowBuffer h.bid h.size).2
  span.data.take span.size

/-- The entry the kernel selects next. -/
def RingState.headEntry (s : RingState) : IoUringBuf := s.buffers.ring.bufs (s.slot s.head)

def RingState.receive (s : RingState) (addr : ℕ) (packet : Bytes) : RingState :=
  { s with buffers := s.buffers.receive addr packet }

/-- The ring, and for each completion that holds a buffer what was received for it. -/
structure MemoryState where
  ring : RingState
  packets : List Bytes

inductive MemoryAction
  /-- The kernel receives a packet on `conn`, into the buffer of the entry at its head. -/
  | select (conn : ℕ) (packet : Bytes)
  | borrow (i : ℕ)
  | giveBack (i : ℕ)
  deriving DecidableEq, Repr

/-- The action on the ring. -/
def MemoryAction.onRing : MemoryAction → RingAction
  | .select conn packet => .select conn packet.length
  | .borrow i => .borrow i
  | .giveBack i => .giveBack i

namespace MemoryState

/-- A packet is not empty and fits the entry it is received into. -/
def step (s : MemoryState) : MemoryAction → Option MemoryState
  | .select conn packet =>
    if packet ≠ [] ∧ packet.length ≤ s.ring.headEntry.len then
      (s.ring.step (.select conn packet.length)).map fun r : RingState =>
        ⟨r.receive s.ring.headEntry.addr packet, s.packets ++ [packet]⟩
    else none
  | .borrow i => (s.ring.step (.borrow i)).map fun r : RingState => { s with ring := r }
  | .giveBack i =>
    (s.ring.step (.giveBack i)).map fun r : RingState => ⟨r, s.packets.eraseIdx i⟩

/-- **Every completion that holds a buffer finds in it what was received for it.** -/
def ReadsPackets (s : MemoryState) : Prop :=
  List.Forall₂ (fun h packet => s.ring.buffers.contents h = packet) s.ring.held s.packets

end MemoryState

/-- A worker's buffers from `register_buffer_ring` on. -/
def memorySystem (k bufferSize : ℕ) (memory : IoUringBufRing) :
    System MemoryState MemoryAction where
  init := ⟨(ringSystem k bufferSize memory).init, []⟩
  step := MemoryState.step

/-! ## What a write to a buffer changes -/

section Receive

variable (b : BufferRing) {addr : ℕ} (packet : Bytes) {h : HeldBuffer}

theorem contents_receive_of_ne (hne : h.bid ≠ addr) :
    (b.receive addr packet).contents h = b.contents h := by
  simp only [BufferRing.contents, BufferRing.borrowBuffer, BufferRing.receive,
    List.getD_eq_getElem?_getD, List.getElem?_modify_ne _ _ hne.symm]

theorem contents_receive (haddr : addr < b.bufferList.length) (hbid : h.bid = addr) :
    (b.receive addr packet).contents h
      = (packet ++ (b.bufferList[addr].drop packet.length)).take h.size := by
  subst hbid
  simp only [BufferRing.contents, BufferRing.borrowBuffer, BufferRing.receive,
    List.getD_eq_getElem?_getD, List.getElem?_modify_eq, List.getElem?_eq_getElem haddr]
  rfl

end Receive

namespace RingState

variable {s : RingState} {k addr : ℕ} {packet : Bytes}

@[simp] theorem size_receive : (s.receive addr packet).size = s.size := List.length_modify _ _ _

/-- A write to a buffer leaves the ring alone. -/
@[simp] theorem published_receive : (s.receive addr packet).published = s.published := by
  have hslot : (s.receive addr packet).slot = s.slot := by
    funext p
    rw [slot, slot, size_receive]
  rw [published, hslot]
  rfl

theorem Owned.receive (hs : s.Owned k) : (s.receive addr packet).Owned k := by
  refine ⟨size_receive.trans hs.size_eq, hs.head_le, ?_⟩
  rw [published_receive]
  exact hs.perm

end RingState

/-! ## Lists side by side -/

section Forall₂

variable {α β : Type} {R : α → β → Prop} {xs : List α} {ys : List β}

theorem forall₂_concat (h : List.Forall₂ R xs ys) {x : α} {y : β} (hxy : R x y) :
    List.Forall₂ R (xs ++ [x]) (ys ++ [y]) :=
  List.rel_append h (.cons hxy .nil)

theorem forall₂_eraseIdx (h : List.Forall₂ R xs ys) (i : ℕ) :
    List.Forall₂ R (xs.eraseIdx i) (ys.eraseIdx i) := by
  rw [List.eraseIdx_eq_take_drop_succ, List.eraseIdx_eq_take_drop_succ]
  exact List.rel_append (List.forall₂_take i h) (List.forall₂_drop (i + 1) h)

theorem forall₂_set_left (h : List.Forall₂ R xs ys) {i : ℕ} {a x : α} (ha : xs[i]? = some a)
    (hx : ∀ y, R a y → R x y) : List.Forall₂ R (xs.set i x) ys := by
  induction h generalizing i with
  | nil => exact .nil
  | cons hxy hrest ih =>
    cases i with
    | zero =>
      obtain rfl := Option.some.inj ha
      exact .cons (hx _ hxy) hrest
    | succ i => exact .cons hxy (ih ha)

end Forall₂

namespace MemoryState

variable {k bufferSize : ℕ} {s t : MemoryState}

/-! ## The three actions -/

/-- The state once the entry at the head has been selected for a packet. -/
def afterSelect (s : MemoryState) (conn : ℕ) (packet : Bytes) : MemoryState :=
  ⟨({ s.ring with
      head := s.ring.head + 1
      held := s.ring.held ++ [⟨conn, s.ring.headEntry.bid, packet.length, false⟩] }
        : RingState).receive s.ring.headEntry.addr packet, s.packets ++ [packet]⟩

theorem step_select_eq_some {conn : ℕ} {packet : Bytes} :
    s.step (.select conn packet) = some t ↔ packet ≠ [] ∧
      packet.length ≤ s.ring.headEntry.len ∧ s.ring.head < s.ring.tail ∧
        t = s.afterSelect conn packet := by
  simp only [step, RingState.step, Option.ite_none_right_eq_some, Option.map_eq_some_iff,
    Option.some.injEq]
  constructor
  · rintro ⟨⟨hne, hlen⟩, r, ⟨hlt, rfl⟩, rfl⟩
    exact ⟨hne, hlen, hlt, rfl⟩
  · rintro ⟨hne, hlen, hlt, rfl⟩
    exact ⟨⟨hne, hlen⟩, _, ⟨hlt, rfl⟩, rfl⟩

/-- What a borrow does: the completion is marked. -/
theorem borrow_cases {i : ℕ} (hstep : s.step (.borrow i) = some t) :
    ∃ h, s.ring.held[i]? = some h ∧
      t = ⟨{ s.ring with
        buffers := (s.ring.buffers.borrowBuffer h.bid h.size).1
        held := s.ring.held.set i { h with borrowed := true } }, s.packets⟩ := by
  obtain ⟨r, hr, rfl⟩ := Option.map_eq_some_iff.mp hstep
  simp only [RingState.step] at hr
  split at hr
  case h_2 => cases hr
  case h_1 h hi =>
    obtain ⟨-, hr⟩ := Option.ite_none_left_eq_some.mp hr
    obtain rfl := Option.some.inj hr
    exact ⟨h, hi, rfl⟩

theorem giveBack_cases {i : ℕ} (hstep : s.step (.giveBack i) = some t) :
    ∃ h, s.ring.held[i]? = some h ∧
      t = ⟨{ s.ring with
        buffers := s.ring.buffers.returnBuffer h.bid
        held := s.ring.held.eraseIdx i }, s.packets.eraseIdx i⟩ := by
  obtain ⟨r, hr, rfl⟩ := Option.map_eq_some_iff.mp hstep
  obtain ⟨h, hi, rfl⟩ := RingState.giveBack_cases hr
  exact ⟨h, hi, rfl⟩

/-- The action on the ring is an action of the ring, but for the bytes written. -/
theorem onRing_step {a : MemoryAction} (hstep : s.step a = some t) :
    ∃ r, s.ring.step a.onRing = some r ∧
      (t.ring = r ∨ ∃ addr packet, t.ring = r.receive addr packet) := by
  cases a with
  | select conn packet =>
    obtain ⟨-, hsome⟩ := Option.ite_none_right_eq_some.mp hstep
    obtain ⟨r, hr, rfl⟩ := Option.map_eq_some_iff.mp hsome
    exact ⟨r, hr, Or.inr ⟨_, _, rfl⟩⟩
  | borrow i =>
    obtain ⟨r, hr, rfl⟩ := Option.map_eq_some_iff.mp hstep
    exact ⟨r, hr, Or.inl rfl⟩
  | giveBack i =>
    obtain ⟨r, hr, rfl⟩ := Option.map_eq_some_iff.mp hstep
    exact ⟨r, hr, Or.inl rfl⟩

/-! ## How buffers, entries and packets lie -/

/-- Every buffer has its size, every slot offers some buffer whole, and every completion has the
size of what was received for it. -/
structure LaidOut (k bufferSize : ℕ) (s : MemoryState) : Prop where
  size_eq : s.ring.size = 2 ^ k
  length_eq : ∀ buffer ∈ s.ring.buffers.bufferList, buffer.length = bufferSize
  entry : ∀ i < 2 ^ k, ∃ bid < 2 ^ k, s.ring.buffers.ring.bufs i = ⟨bid, bufferSize, bid⟩
  bid_lt : ∀ h ∈ s.ring.held, h.bid < 2 ^ k
  received : List.Forall₂ (fun h packet => h.size = packet.length ∧ packet ≠ [] ∧
    packet.length ≤ bufferSize) s.ring.held s.packets

theorem LaidOut.slot_lt (hs : s.LaidOut k bufferSize) (p : ℕ) : s.ring.slot p < 2 ^ k := by
  rw [RingState.slot, hs.size_eq, ioUringBufRingMask, Nat.and_two_pow_sub_one_eq_mod]
  exact Nat.mod_lt p (Nat.two_pow_pos k)

theorem LaidOut.headEntry (hs : s.LaidOut k bufferSize) :
    ∃ bid < 2 ^ k, s.ring.headEntry = ⟨bid, bufferSize, bid⟩ := hs.entry _ (hs.slot_lt _)

theorem LaidOut.length_getD (hs : s.LaidOut k bufferSize) {bid : ℕ} (hbid : bid < 2 ^ k) :
    (s.ring.buffers.bufferList.getD bid []).length = bufferSize := by
  rw [← hs.size_eq] at hbid
  rw [List.getD_eq_getElem?_getD, List.getElem?_eq_getElem hbid]
  exact hs.length_eq _ (List.getElem_mem hbid)

/-- A packet that fits leaves its buffer as long as it was. -/
theorem length_receive {bufferList : List Bytes} {bufferSize : ℕ}
    (hlist : ∀ buffer ∈ bufferList, buffer.length = bufferSize) (addr : ℕ) {packet : Bytes}
    (hlen : packet.length ≤ bufferSize) :
    ∀ buffer ∈ bufferList.modify addr fun buffer => packet ++ buffer.drop packet.length,
      buffer.length = bufferSize := by
  intro buffer hmem
  obtain ⟨i, hi, rfl⟩ := List.getElem_of_mem hmem
  rw [List.length_modify] at hi
  rw [List.getElem_modify]
  have hold := hlist _ (List.getElem_mem hi)
  split
  · rw [List.length_append, List.length_drop, hold]
    omega
  · exact hold

/-- **No action disturbs that**, returns out of place included. -/
theorem laidOut_step {a : MemoryAction} (hs : s.LaidOut k bufferSize)
    (hstep : s.step a = some t) : t.LaidOut k bufferSize := by
  cases a with
  | select conn packet =>
    obtain ⟨hne, hlen, -, rfl⟩ := step_select_eq_some.mp hstep
    obtain ⟨bid, hbid, hentry⟩ := hs.headEntry
    rw [hentry] at hlen
    refine ⟨RingState.size_receive.trans hs.size_eq, length_receive hs.length_eq _ hlen, hs.entry,
      ?_, forall₂_concat hs.received ⟨rfl, hne, hlen⟩⟩
    refine List.forall_mem_append.mpr ⟨hs.bid_lt, List.forall_mem_singleton.mpr ?_⟩
    rw [hentry]
    exact hbid
  | borrow i =>
    obtain ⟨h, hi, rfl⟩ := borrow_cases hstep
    refine ⟨hs.size_eq, hs.length_eq, hs.entry, fun c hc => ?_,
      forall₂_set_left hs.received hi fun _ hp => hp⟩
    rcases List.mem_or_eq_of_mem_set hc with hc | rfl
    · exact hs.bid_lt c hc
    · exact hs.bid_lt h (List.mem_of_getElem? hi)
  | giveBack i =>
    obtain ⟨h, hi, rfl⟩ := giveBack_cases hstep
    have hbid : h.bid < 2 ^ k := hs.bid_lt h (List.mem_of_getElem? hi)
    refine ⟨hs.size_eq, hs.length_eq, fun j hj => ?_, fun c hc =>
      hs.bid_lt c (List.mem_of_mem_eraseIdx hc), forall₂_eraseIdx hs.received i⟩
    -- the slot written offers the buffer given back
    change ∃ bid < 2 ^ k, Function.update s.ring.buffers.ring.bufs _ _ j = _
    rw [Function.update_apply]
    split
    · exact ⟨h.bid, hbid, by rw [hs.length_getD hbid]⟩
    · exact hs.entry j hj

end MemoryState

namespace MemoryState

variable {k bufferSize : ℕ} {s t : MemoryState}

/-! ## What the completions read -/

theorem heldIds_afterSelect (conn : ℕ) (packet : Bytes) :
    (s.afterSelect conn packet).ring.heldIds = s.ring.heldIds ++ [s.ring.headEntry.bid] :=
  List.map_append

/-- The kernel takes the first of the ids that are published. -/
theorem published_eq_cons (hlt : s.ring.head < s.ring.tail) (conn : ℕ) (packet : Bytes) :
    s.ring.published
      = s.ring.headEntry.bid :: (s.afterSelect conn packet).ring.published := by
  have hlen : s.ring.tail - s.ring.head = s.ring.tail - (s.ring.head + 1) + 1 := by omega
  rw [afterSelect, RingState.published_receive, RingState.published, hlen, window_succ]
  rfl

/-- **A packet received into a buffer that nobody holds** disturbs nobody. -/
theorem readsPackets_select {conn : ℕ} {packet : Bytes} (hs : s.LaidOut k bufferSize)
    (hr : s.ReadsPackets) (hfree : s.ring.headEntry.bid ∉ s.ring.heldIds) :
    (s.afterSelect conn packet).ReadsPackets := by
  obtain ⟨bid, hbid, hentry⟩ := hs.headEntry
  rw [← hs.size_eq] at hbid
  rw [hentry] at hfree
  rw [afterSelect, hentry]
  have hother : ∀ h ∈ s.ring.held, h.bid ≠ bid := fun h hmem heq =>
    hfree (List.mem_map.mpr ⟨h, hmem, heq⟩)
  refine forall₂_concat ?_ ?_
  · refine ((List.forall₂_and_left _ _).mpr ⟨hother, hr⟩).imp fun h p hp => ?_
    exact (contents_receive_of_ne s.ring.buffers packet hp.1).trans hp.2
  · refine (contents_receive s.ring.buffers packet hbid rfl).trans ?_
    exact List.take_left

theorem readsPackets_borrow {i : ℕ} (hr : s.ReadsPackets)
    (hstep : s.step (.borrow i) = some t) : t.ReadsPackets := by
  obtain ⟨h, hi, rfl⟩ := borrow_cases hstep
  exact forall₂_set_left hr hi fun _ hp => hp

/-- A return changes no buffer, in place or not. -/
theorem readsPackets_giveBack {i : ℕ} (hr : s.ReadsPackets)
    (hstep : s.step (.giveBack i) = some t) : t.ReadsPackets := by
  obtain ⟨h, hi, rfl⟩ := giveBack_cases hstep
  exact forall₂_eraseIdx hr i

/-- **A packet received into a buffer that is held** can be one that overwrites what is to be read
there. -/
theorem exists_not_readsPackets (hs : s.LaidOut k bufferSize)
    (hheld : s.ring.headEntry.bid ∈ s.ring.heldIds) :
    ∃ c : Byte, ¬ (s.afterSelect 0 [c]).ReadsPackets := by
  obtain ⟨bid, hbid, hentry⟩ := hs.headEntry
  rw [← hs.size_eq] at hbid
  rw [hentry] at hheld
  obtain ⟨h, hmem, hhbid⟩ := List.mem_map.mp hheld
  obtain ⟨i, hi, rfl⟩ := List.getElem_of_mem hmem
  have hip : i < s.packets.length := hs.received.length_eq ▸ hi
  obtain ⟨hsize, hne, -⟩ := hs.received.get hi hip
  simp only [List.get_eq_getElem] at hsize hne
  obtain ⟨c, cs, hpacket⟩ := List.exists_cons_of_ne_nil hne
  rw [hpacket, List.length_cons] at hsize
  -- one byte, and not the one that is there
  refine ⟨c + 1, fun hread => ?_⟩
  rw [afterSelect, hentry] at hread
  have hat := hread.get (i := i) (by simp [RingState.receive]; omega) (by simp; omega)
  simp only [List.get_eq_getElem, RingState.receive, List.getElem_append_left hi,
    List.getElem_append_left hip] at hat
  rw [contents_receive _ _ hbid hhbid, hsize, hpacket] at hat
  have hhead : c + 1 = c := (List.cons.inj hat).1
  exact absurd hhead (by grind)

/-- **Selecting on and on**: with an id that is both published and held, or published twice, the
kernel comes to a buffer that is held — by induction on the entries it has left. -/
theorem exists_overwritten {S : System MemoryState MemoryAction} (hS : S.step = step)
    (hpos : 0 < bufferSize) (n : ℕ) : ∀ {s : MemoryState}, s.ring.tail - s.ring.head = n →
    s.LaidOut k bufferSize → s.ReadsPackets → s.ring.heldIds.Nodup →
    ¬ (s.ring.published ++ s.ring.heldIds).Nodup →
      ∃ as u, S.runFrom s as = some u ∧ ¬ u.ReadsPackets := by
  induction n with
  | zero =>
    intro s hn _ _ hheld hdup
    rw [RingState.published, hn, window_zero, List.nil_append] at hdup
    exact absurd hheld hdup
  | succ n ih =>
    intro s hn hs hr hheld hdup
    have hlt : s.ring.head < s.ring.tail := by omega
    obtain ⟨bid, -, hentry⟩ := hs.headEntry
    have hstep : ∀ c : Byte, S.step s (.select 0 [c]) = some (s.afterSelect 0 [c]) := by
      intro c
      rw [hS, step_select_eq_some, hentry]
      exact ⟨List.cons_ne_nil _ _, hpos, hlt, rfl⟩
    by_cases hfree : s.ring.headEntry.bid ∈ s.ring.heldIds
    · obtain ⟨c, hc⟩ := exists_not_readsPackets hs hfree
      refine ⟨[.select 0 [c]], s.afterSelect 0 [c], ?_, hc⟩
      rw [System.runFrom_cons, hstep]
      rfl
    -- the id moves from the published ones to those held
    have hids : ((s.afterSelect 0 [0]).ring.published
        ++ (s.afterSelect 0 [0]).ring.heldIds).Perm (s.ring.published ++ s.ring.heldIds) := by
      rw [heldIds_afterSelect, published_eq_cons hlt 0 [0], ← List.append_assoc]
      exact List.perm_append_comm
    have hheld' : (s.afterSelect 0 [0]).ring.heldIds.Nodup := by
      rw [heldIds_afterSelect]
      exact (List.perm_append_singleton _ _).nodup_iff.mpr (List.nodup_cons.mpr ⟨hfree, hheld⟩)
    have hleft : s.ring.tail - (s.ring.head + 1) = n := by omega
    obtain ⟨as, u, hrun, hu⟩ := ih hleft (laidOut_step hs (hS ▸ hstep 0))
      (readsPackets_select hs hr hfree) hheld' (mt hids.nodup_iff.mp hdup)
    refine ⟨.select 0 [0] :: as, u, ?_, hu⟩
    rw [System.runFrom_cons, hstep]
    exact hrun

/-- Ids that are all different are kept apart, as there are as many as buffers. -/
theorem LaidOut.owned (hs : s.LaidOut k bufferSize) (hle : s.ring.head ≤ s.ring.tail)
    (hlen : (s.ring.tail - s.ring.head) + s.ring.held.length = 2 ^ k)
    (hnodup : (s.ring.published ++ s.ring.heldIds).Nodup) : s.ring.Owned k := by
  refine ⟨hs.size_eq, hle, (List.subperm_of_subset hnodup ?_).perm_of_length_le ?_⟩
  · refine List.append_subset.mpr ⟨fun bid hmem => ?_, fun bid hmem => ?_⟩
    · obtain ⟨p, -, rfl⟩ := List.mem_map.mp hmem
      obtain ⟨bid, hbid, hentry⟩ := hs.entry _ (hs.slot_lt p)
      rw [RingState.bidOf, hentry]
      exact List.mem_range.mpr hbid
    · obtain ⟨h, hh, rfl⟩ := List.mem_map.mp hmem
      exact List.mem_range.mpr (hs.bid_lt h hh)
  · rw [List.length_range, List.length_append, RingState.published, length_window,
      RingState.heldIds, List.length_map, hlen]

end MemoryState

/-! ## Whole runs -/

section Runs

variable (k bufferSize : ℕ) (memory : IoUringBufRing)

/-- The ids are kept apart, and every completion reads what was received for it. -/
structure MemoryState.Intact (s : MemoryState) : Prop where
  owned : s.ring.Owned k
  laidOut : s.LaidOut k bufferSize
  reads : s.ReadsPackets

theorem intact_init : (memorySystem k bufferSize memory).init.Intact k bufferSize where
  owned := owned_init k bufferSize memory
  laidOut :=
    { size_eq := length_bufferList_registerBufferRing _ _ _
      length_eq := fun buffer hmem => by
        rw [List.eq_of_mem_replicate hmem, List.length_replicate]
      entry := fun i hi => ⟨i, hi, bufs_registerBufferRing memory k bufferSize hi⟩
      bid_lt := fun h hmem => absurd hmem List.not_mem_nil
      received := .nil }
  reads := .nil

variable {k bufferSize}

/-- **What one move keeps.** -/
theorem intact_step (s : MemoryState) (a : MemoryAction) (t : MemoryState)
    (hs : s.Intact k bufferSize) (hstep : s.step a = some t)
    (ha : ReturnsInPlace s.ring a.onRing) : t.Intact k bufferSize := by
  refine ⟨?_, MemoryState.laidOut_step hs.laidOut hstep, ?_⟩
  · obtain ⟨r, hr, hring | ⟨addr, packet, hring⟩⟩ := MemoryState.onRing_step hstep
    · rw [hring]
      exact owned_step k s.ring a.onRing r hs.owned hr ha
    · rw [hring]
      exact (owned_step k s.ring a.onRing r hs.owned hr ha).receive
  · cases a with
    | select conn packet =>
      obtain ⟨-, -, hlt, rfl⟩ := MemoryState.step_select_eq_some.mp hstep
      refine MemoryState.readsPackets_select hs.laidOut hs.reads ?_
      -- the entry at the head is published, so nobody holds it
      have hpub : s.ring.headEntry.bid ∈ s.ring.published := by
        rw [MemoryState.published_eq_cons hlt conn packet]
        exact List.mem_cons_self
      have hbid := List.mem_range.mp (hs.owned.perm.subset (List.mem_append_left _ hpub))
      rw [← hs.owned.size_eq] at hbid
      exact (hs.owned.exclusive.published_iff_not_held hbid).mp hpub
    | borrow i => exact MemoryState.readsPackets_borrow hs.reads hstep
    | giveBack i => exact MemoryState.readsPackets_giveBack hs.reads hstep

/-- **A return out of place** leaves it to the kernel to overwrite what is still to be read. -/
theorem exists_overwritten_of_giveBack {i : ℕ} {s t : MemoryState} (hs : s.Intact k bufferSize)
    (hstep : s.step (.giveBack i) = some t) (hout : ¬ ReturnsInPlace s.ring (.giveBack i)) :
    ∃ as u, (memorySystem k bufferSize memory).runFrom t as = some u ∧ ¬ u.ReadsPackets := by
  have hlaid := MemoryState.laidOut_step hs.laidOut hstep
  have hreads := MemoryState.readsPackets_giveBack hs.reads hstep
  obtain ⟨r, hr, rfl⟩ := Option.map_eq_some_iff.mp hstep
  have hlost := RingState.not_exclusive_giveBack hs.owned hr hout
  obtain ⟨h, hi, rfl⟩ := RingState.giveBack_cases hr
  obtain ⟨hlt, rfl⟩ := List.getElem?_eq_some_iff.mp hi
  -- some byte was received for the completion, so buffers are not empty
  have hpos : 0 < bufferSize := by
    obtain ⟨-, hne, hfits⟩ := hs.laidOut.received.get hlt
      (hs.laidOut.received.length_eq ▸ hlt)
    exact (List.length_pos_iff.mpr hne).trans_le hfits
  have hheld : ((s.ring.held.eraseIdx i).map HeldBuffer.bid).Nodup := by
    have hall := (List.nodup_append.mp (hs.owned.perm.nodup_iff.mpr List.nodup_range)).2.1
    exact hall.sublist ((List.eraseIdx_sublist _ _).map _)
  refine MemoryState.exists_overwritten rfl hpos _ rfl hlaid hreads hheld fun hnodup => ?_
  refine hlost (hlaid.owned (hs.owned.head_le.trans (Nat.le_succ _)) ?_ hnodup).exclusive
  have hsum := hs.owned.length_add
  have hle := hs.owned.head_le
  change s.ring.tail + 1 - s.ring.head + (s.ring.held.eraseIdx i).length = _
  rw [List.length_eraseIdx_of_lt hlt]
  omega

/-- **A completion reads what was received for it, exactly as long as every return is in place** —
over every interleaving of receptions, borrows and returns, whatever is received. -/
theorem readsPackets_exactFor (k bufferSize : ℕ) (memory : IoUringBufRing)
    (as : List MemoryAction) :
    (memorySystem k bufferSize memory).ExactFor MemoryState.ReadsPackets
      (fun s a => ReturnsInPlace s.ring a.onRing) as := by
  refine System.exactFor_of_inv (MemoryState.Intact k bufferSize)
    (intact_init k bufferSize memory) (fun s hs => hs.reads) intact_step ?_ as
  intro s a t hs hstep hout
  cases a with
  | giveBack i => exact exists_overwritten_of_giveBack memory hs hstep hout
  | select conn packet => exact absurd trivial hout
  | borrow i => exact absurd trivial hout

end Runs

end YServer
