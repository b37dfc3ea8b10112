import YServer.BaseNet.Outstanding
import Mathlib.Data.List.Nodup

/-!
# BaseNet/Descriptors — which connection a descriptor stands for

The kernel hands out a descriptor that is not open, with a TCP connection nobody has seen behind it;
the accept coroutine gives it a socket, and the socket closes it when its handler leaves.  In
between the descriptor stands for that socket's peer and nothing else, and a descriptor still on its
way in a completion belongs to no socket (`descriptors_of_visited`).  The number itself comes back
as soon as it is closed.
-/

namespace YServer

open Machinery

/-- The descriptor a completion brings. -/
def Completion.newFd : Completion → Option ℤ
  | .accept res _ => if 0 ≤ res then some res else none
  | .recv _ _ _ => none
  | .send _ _ => none

namespace Worker

/-- The descriptors on their way to the accept coroutine. -/
def pendingFds (w : Worker) : List ℤ := w.cq.filterMap Completion.newFd

/-- **An open descriptor belongs to one socket**, or to one completion. -/
structure Descriptors (w : Worker) : Prop where
  freshPeer : ∀ i, w.connCount ≤ i → (w.conns i).peer = none
  negative : ∀ fd < 0, w.fds fd = none
  accepted_lt : ∀ fd t, w.fds fd = some t → t < w.accepted
  injective : ∀ fd fd' t, w.fds fd = some t → w.fds fd' = some t → fd = fd'
  peer_lt : ∀ i t, (w.conns i).peer = some t → t < w.accepted
  distinct : ∀ i j t, (w.conns i).peer = some t → (w.conns j).peer = some t → i = j
  /-- A handler's descriptor stands for its peer… -/
  owns : ∀ i, (w.conns i).inLoop = true →
    w.fds (w.conns i).rawFileDescriptor = (w.conns i).peer
  /-- …which there is, unless it is no descriptor at all… -/
  hasPeer : ∀ i, (w.conns i).inLoop = true → 0 ≤ (w.conns i).rawFileDescriptor →
    (w.conns i).peer.isSome
  /-- …and no other descriptor stands for it, nor that one once the handler has left. -/
  owned : ∀ i t fd, (w.conns i).peer = some t → w.fds fd = some t →
    (w.conns i).inLoop = true ∧ (w.conns i).rawFileDescriptor = fd
  pendingNodup : w.pendingFds.Nodup
  pendingOpen : ∀ fd ∈ w.pendingFds, (w.fds fd).isSome
  pendingFree : ∀ fd ∈ w.pendingFds, ∀ i, (w.conns i).inLoop = true →
    (w.conns i).rawFileDescriptor ≠ fd

variable {w w' : Worker}

/-- Only the descriptor table, the sockets and the completions with descriptors matter. -/
theorem Descriptors.congr (h : w.Descriptors) (hfds : w'.fds = w.fds)
    (haccepted : w'.accepted = w.accepted) (hcount : w'.connCount = w.connCount)
    (hpeer : ∀ i, (w'.conns i).peer = (w.conns i).peer)
    (hfd : ∀ i, (w'.conns i).rawFileDescriptor = (w.conns i).rawFileDescriptor)
    (hinLoop : ∀ i, (w'.conns i).inLoop = (w.conns i).inLoop)
    (hpending : w'.pendingFds.Sublist w.pendingFds) : w'.Descriptors where
  freshPeer i hi := (hpeer i).trans (h.freshPeer i (hcount ▸ hi))
  negative fd hneg := by rw [hfds]; exact h.negative fd hneg
  accepted_lt fd t := by rw [hfds, haccepted]; exact h.accepted_lt fd t
  injective fd fd' t := by rw [hfds]; exact h.injective fd fd' t
  peer_lt i t := by rw [hpeer, haccepted]; exact h.peer_lt i t
  distinct i j t := by rw [hpeer, hpeer]; exact h.distinct i j t
  owns i := by rw [hinLoop, hfds, hfd, hpeer]; exact h.owns i
  hasPeer i := by rw [hinLoop, hfd, hpeer]; exact h.hasPeer i
  owned i t fd := by rw [hpeer, hfds, hinLoop, hfd]; exact h.owned i t fd
  pendingNodup := h.pendingNodup.sublist hpending
  pendingOpen fd hmem := by rw [hfds]; exact h.pendingOpen fd (hpending.subset hmem)
  pendingFree fd hmem i := by
    rw [hinLoop, hfd]
    exact h.pendingFree fd (hpending.subset hmem) i

/-- Nothing else matters. -/
theorem Descriptors.of_eq (h : w.Descriptors) (hfds : w'.fds = w.fds)
    (haccepted : w'.accepted = w.accepted) (hcount : w'.connCount = w.connCount)
    (hconns : w'.conns = w.conns) (hpending : w'.pendingFds.Sublist w.pendingFds) :
    w'.Descriptors :=
  h.congr hfds haccepted hcount (fun _ => by rw [hconns]) (fun _ => by rw [hconns])
    (fun _ => by rw [hconns]) hpending

/-- A descriptor that no socket has and no other completion brings. -/
structure Unclaimed (w : Worker) (fd : ℤ) : Prop where
  opened : 0 ≤ fd → (w.fds fd).isSome
  free : ∀ i, (w.conns i).inLoop = true → 0 ≤ fd → (w.conns i).rawFileDescriptor ≠ fd
  notPending : fd ∉ w.pendingFds

/-! ## The primitives -/

theorem Descriptors.cqeSeen (h : w.Descriptors) {c : Completion} {cq : List Completion}
    (hcq : w.cq = c :: cq) (left : ℕ) : (w.cqeSeen cq left).Descriptors :=
  h.of_eq rfl rfl rfl rfl
    (by rw [pendingFds, pendingFds, hcq]; exact (List.sublist_cons_self c cq).filterMap _)

/-- A descriptor that is taken from its completion is unclaimed. -/
theorem Descriptors.unclaimed (h : w.Descriptors) {res : ℤ} {more : Bool} {cq : List Completion}
    (hcq : w.cq = .accept res more :: cq) (left : ℕ) : (w.cqeSeen cq left).Unclaimed res := by
  have hpending : ∀ fd ∈ (w.cqeSeen cq left).pendingFds, 0 ≤ fd := by
    intro fd hmem
    obtain ⟨c, -, hc⟩ := List.mem_filterMap.mp hmem
    cases c with
    | accept res more =>
      rw [Completion.newFd, Option.ite_none_right_eq_some] at hc
      exact Option.some.inj hc.2 ▸ hc.1
    | recv conn res packet => cases hc
    | send k res => cases hc
  have hcons : 0 ≤ res → w.pendingFds = res :: (w.cqeSeen cq left).pendingFds := by
    intro hres
    rw [pendingFds, hcq]
    exact List.filterMap_cons_some (if_pos hres)
  refine ⟨fun hres => ?_, fun i hi hres => ?_, fun hmem => ?_⟩
  · exact h.pendingOpen res (by rw [hcons hres]; exact List.mem_cons_self)
  · exact h.pendingFree res (by rw [hcons hres]; exact List.mem_cons_self) i hi
  · have hnodup := h.pendingNodup
    rw [hcons (hpending res hmem)] at hnodup
    exact (List.nodup_cons.mp hnodup).1 hmem

theorem Descriptors.setRaw (h : w.Descriptors) (conn : ℕ) (raw : Bytes) :
    (w.setRaw conn raw).Descriptors :=
  h.congr rfl rfl rfl (peer_setRaw conn raw) (rawFileDescriptor_setRaw conn raw)
    (inLoop_setRaw conn raw) (List.Sublist.refl _)

/-- A value nothing else has may be added to a partial injection. -/
theorem eq_of_update_eq_some {α τ : Type*} [DecidableEq α] {f : α → Option τ}
    (hinj : ∀ a b t, f a = some t → f b = some t → a = b) {c : α} {v : Option τ}
    (hv : ∀ a t, f a = some t → v ≠ some t) {a b : α} {t : τ}
    (ha : Function.update f c v a = some t) (hb : Function.update f c v b = some t) : a = b := by
  by_cases hac : a = c <;> by_cases hbc : b = c
  · exact hac.trans hbc.symm
  · rw [hac, Function.update_self] at ha
    rw [Function.update_of_ne hbc] at hb
    exact absurd ha (hv b t hb)
  · rw [hbc, Function.update_self] at hb
    rw [Function.update_of_ne hac] at ha
    exact absurd hb (hv a t ha)
  · rw [Function.update_of_ne hac] at ha
    rw [Function.update_of_ne hbc] at hb
    exact hinj a b t ha hb

section Connect

variable {fd : ℤ}

theorem conns_connect_self : (w.connect fd).conns w.connCount = ⟨fd, w.fds fd, [], true⟩ :=
  Function.update_self ..

theorem conns_connect_of_ne {i : ℕ} (hi : i ≠ w.connCount) : (w.connect fd).conns i = w.conns i :=
  Function.update_of_ne hi ..

/-- What holds of the new socket and of the ones there are holds of all. -/
theorem forall_conns_connect {p : ℕ → Connection → Prop}
    (hnew : p w.connCount ⟨fd, w.fds fd, [], true⟩) (hold : ∀ i ≠ w.connCount, p i (w.conns i))
    (i : ℕ) : p i ((w.connect fd).conns i) := by
  rcases eq_or_ne i w.connCount with rfl | hne
  · rw [conns_connect_self]
    exact hnew
  · rw [conns_connect_of_ne hne]
    exact hold i hne

/-- The connection behind an unclaimed descriptor is no socket's peer yet. -/
theorem Unclaimed.newPeer (hfd : w.Unclaimed fd) (h : w.Descriptors) (i t : ℕ)
    (hpeer : (w.conns i).peer = some t) : w.fds fd ≠ some t := by
  intro hfds
  obtain ⟨hinLoop, heq⟩ := h.owned i t fd hpeer hfds
  refine hfd.free i hinLoop ?_ heq
  by_contra hneg
  rw [h.negative fd (by omega)] at hfds
  cases hfds

/-- **A socket takes over an unclaimed descriptor.** -/
theorem Descriptors.connect (h : w.Descriptors) (hfd : w.Unclaimed fd) :
    (w.connect fd).Descriptors where
  freshPeer i hi := by
    have hlt : w.connCount + 1 ≤ i := hi
    rw [conns_connect_of_ne (by omega)]
    exact h.freshPeer i (by omega)
  negative := h.negative
  accepted_lt := h.accepted_lt
  injective := h.injective
  peer_lt i t := by
    refine forall_conns_connect (p := fun _ c => c.peer = some t → t < w.accepted) ?_ ?_ i
    · exact h.accepted_lt fd t
    · exact fun i _ => h.peer_lt i t
  distinct i j t hi hj := by
    have hpeers : (fun i => ((w.connect fd).conns i).peer)
        = Function.update (fun i => (w.conns i).peer) w.connCount (w.fds fd) := by
      ext1 i
      rcases eq_or_ne i w.connCount with rfl | hne
      · rw [conns_connect_self, Function.update_self]
      · rw [conns_connect_of_ne hne, Function.update_of_ne hne]
    exact eq_of_update_eq_some h.distinct (hfd.newPeer h) ((congrFun hpeers i).symm.trans hi)
      ((congrFun hpeers j).symm.trans hj)
  owns := by
    refine forall_conns_connect
      (p := fun _ c => c.inLoop = true → w.fds c.rawFileDescriptor = c.peer) ?_ ?_
    · exact fun _ => rfl
    · exact fun i _ => h.owns i
  hasPeer := by
    refine forall_conns_connect
      (p := fun _ c => c.inLoop = true → 0 ≤ c.rawFileDescriptor → c.peer.isSome) ?_ ?_
    · exact fun _ => hfd.opened
    · exact fun i _ => h.hasPeer i
  owned i t fd' := by
    refine forall_conns_connect (p := fun _ c => c.peer = some t → w.fds fd' = some t →
      c.inLoop = true ∧ c.rawFileDescriptor = fd') ?_ ?_ i
    · exact fun hpeer hfds => ⟨rfl, h.injective fd fd' t hpeer hfds⟩
    · exact fun i _ => h.owned i t fd'
  pendingNodup := h.pendingNodup
  pendingOpen := h.pendingOpen
  pendingFree fd' hmem := by
    refine forall_conns_connect
      (p := fun _ c => c.inLoop = true → c.rawFileDescriptor ≠ fd') ?_ ?_
    · rintro - rfl
      exact hfd.notPending hmem
    · exact fun i _ => h.pendingFree fd' hmem i

end Connect

section Leave

variable {conn : ℕ}

theorem inLoop_leave_iff {i : ℕ} :
    ((w.leave conn).conns i).inLoop = true ↔ i ≠ conn ∧ (w.conns i).inLoop = true := by
  rcases eq_or_ne i conn with rfl | hne
  · simp [Worker.leave]
  · simp [Worker.leave, hne]

theorem fds_leave_self : (w.leave conn).fds (w.conns conn).rawFileDescriptor = none := by
  simp [Worker.leave]

theorem fds_leave_of_ne {fd : ℤ} (hne : fd ≠ (w.conns conn).rawFileDescriptor) :
    (w.leave conn).fds fd = w.fds fd :=
  Function.update_of_ne hne ..

theorem fds_leave_eq_some {fd : ℤ} {t : ℕ} (h : (w.leave conn).fds fd = some t) :
    fd ≠ (w.conns conn).rawFileDescriptor ∧ w.fds fd = some t := by
  rcases eq_or_ne fd (w.conns conn).rawFileDescriptor with rfl | hne
  · rw [fds_leave_self] at h
    cases h
  · exact ⟨hne, (fds_leave_of_ne hne).symm.trans h⟩

/-- Two sockets with one number have no peer. -/
theorem Descriptors.peer_eq_none (h : w.Descriptors) {i j : ℕ} (hne : i ≠ j)
    (hi : (w.conns i).inLoop = true) (hj : (w.conns j).inLoop = true)
    (heq : (w.conns i).rawFileDescriptor = (w.conns j).rawFileDescriptor) :
    (w.conns i).peer = none := by
  have hsame : (w.conns i).peer = (w.conns j).peer := by rw [← h.owns i hi, ← h.owns j hj, heq]
  cases hp : (w.conns i).peer with
  | none => rfl
  | some t => exact absurd (h.distinct i j t hp (hsame.symm.trans hp)) hne

/-- **A handler that leaves closes its own descriptor**, and nobody else's. -/
theorem Descriptors.leave (h : w.Descriptors) (halive : (w.conns conn).inLoop = true) :
    (w.leave conn).Descriptors where
  freshPeer i hi := (peer_leave conn i).trans (h.freshPeer i hi)
  negative fd hneg := by
    rcases eq_or_ne fd (w.conns conn).rawFileDescriptor with rfl | hne
    · exact fds_leave_self
    · rw [fds_leave_of_ne hne]
      exact h.negative fd hneg
  accepted_lt fd t ht := h.accepted_lt fd t (fds_leave_eq_some ht).2
  injective fd fd' t ht ht' :=
    h.injective fd fd' t (fds_leave_eq_some ht).2 (fds_leave_eq_some ht').2
  peer_lt i t := by rw [peer_leave]; exact h.peer_lt i t
  distinct i j t := by rw [peer_leave, peer_leave]; exact h.distinct i j t
  owns i hi := by
    obtain ⟨hne, hinLoop⟩ := inLoop_leave_iff.mp hi
    rw [rawFileDescriptor_leave, peer_leave]
    rcases eq_or_ne (w.conns i).rawFileDescriptor (w.conns conn).rawFileDescriptor with heq | hfdne
    · rw [h.peer_eq_none hne hinLoop halive heq, heq, fds_leave_self]
    · rw [fds_leave_of_ne hfdne]
      exact h.owns i hinLoop
  hasPeer i hi := by
    rw [rawFileDescriptor_leave, peer_leave]
    exact h.hasPeer i (inLoop_leave_iff.mp hi).2
  owned i t fd hi ht := by
    rw [peer_leave] at hi
    obtain ⟨hne, ht'⟩ := fds_leave_eq_some ht
    obtain ⟨hinLoop, heq⟩ := h.owned i t fd hi ht'
    refine ⟨inLoop_leave_iff.mpr ⟨?_, hinLoop⟩, (rawFileDescriptor_leave conn i).trans heq⟩
    rintro rfl
    exact hne heq.symm
  pendingNodup := h.pendingNodup
  pendingOpen fd hmem := by
    rw [fds_leave_of_ne fun heq => h.pendingFree fd hmem conn halive heq.symm]
    exact h.pendingOpen fd hmem
  pendingFree fd hmem i hi := by
    rw [rawFileDescriptor_leave]
    exact h.pendingFree fd hmem i (inLoop_leave_iff.mp hi).2

end Leave

section Accept

variable {j : ℕ} {res : ℤ} {more : Bool}

theorem pendingFds_completeAccept : (w.completeAccept j res more).pendingFds
    = w.pendingFds ++ if 0 ≤ res then [res] else [] := by
  rw [pendingFds, pendingFds, Worker.completeAccept, List.filterMap_append]
  by_cases hres : 0 ≤ res <;> simp [Completion.newFd, hres]

/-- An accept that fails opens nothing. -/
theorem Descriptors.acceptFailed (h : w.Descriptors) (hres : res < 0) :
    (w.completeAccept j res more).Descriptors := by
  refine h.congr ?_ ?_ rfl (fun _ => rfl) (fun _ => rfl) (fun _ => rfl) ?_
  · simp [Worker.completeAccept, hres]
  · simp [Worker.completeAccept, hres]
  · rw [pendingFds_completeAccept, if_neg (by omega), List.append_nil]

/-- No socket has the number of a descriptor that is not open. -/
theorem Descriptors.ne_of_closed (h : w.Descriptors) (hpos : 0 ≤ res) (hfds : w.fds res = none)
    (i : ℕ) (hi : (w.conns i).inLoop = true) : (w.conns i).rawFileDescriptor ≠ res := by
  rintro rfl
  have hsome := h.hasPeer i hi hpos
  rw [← h.owns i hi, hfds] at hsome
  cases hsome

theorem fds_completeAccept (hpos : 0 ≤ res) : (w.completeAccept j res more).fds
    = Function.update w.fds res (some w.accepted) := if_pos hpos

theorem fds_completeAccept_eq_some (hpos : 0 ≤ res) {fd : ℤ} {t : ℕ}
    (h : (w.completeAccept j res more).fds fd = some t) :
    fd = res ∧ t = w.accepted ∨ w.fds fd = some t := by
  rw [fds_completeAccept hpos] at h
  rcases eq_or_ne fd res with rfl | hne
  · rw [Function.update_self, Option.some.injEq] at h
    exact Or.inl ⟨rfl, h.symm⟩
  · rw [Function.update_of_ne hne] at h
    exact Or.inr h

theorem accepted_completeAccept (hpos : 0 ≤ res) :
    (w.completeAccept j res more).accepted = w.accepted + 1 := if_pos hpos

theorem pendingFds_accepted (hpos : 0 ≤ res) :
    (w.completeAccept j res more).pendingFds = w.pendingFds ++ [res] := by
  rw [pendingFds_completeAccept, if_pos hpos]

/-- **An accept that succeeds opens a new descriptor** for a connection nobody has seen. -/
theorem Descriptors.accepted (h : w.Descriptors) (hpos : 0 ≤ res) (hfds : w.fds res = none) :
    (w.completeAccept j res more).Descriptors where
  freshPeer := h.freshPeer
  negative fd hneg := by
    rw [fds_completeAccept hpos, Function.update_of_ne (by omega)]
    exact h.negative fd hneg
  accepted_lt fd t ht := by
    rw [accepted_completeAccept hpos]
    rcases fds_completeAccept_eq_some hpos ht with ⟨-, rfl⟩ | ht
    · exact Nat.lt_succ_self _
    · exact Nat.lt_succ_of_lt (h.accepted_lt fd t ht)
  injective fd fd' t ht ht' := by
    rw [fds_completeAccept hpos] at ht ht'
    refine eq_of_update_eq_some h.injective (fun fd t ht heq => ?_) ht ht'
    exact (h.accepted_lt fd t ht).ne' (Option.some.inj heq)
  peer_lt i t hi := by
    rw [accepted_completeAccept hpos]
    exact Nat.lt_succ_of_lt (h.peer_lt i t hi)
  distinct := h.distinct
  owns i hi := by
    rw [fds_completeAccept hpos]
    exact (Function.update_of_ne (h.ne_of_closed hpos hfds i hi) ..).trans (h.owns i hi)
  hasPeer := h.hasPeer
  owned i t fd hi ht := by
    rcases fds_completeAccept_eq_some hpos ht with ⟨-, rfl⟩ | ht
    · exact absurd (h.peer_lt i _ hi) (lt_irrefl _)
    · exact h.owned i t fd hi ht
  pendingNodup := by
    rw [pendingFds_accepted hpos]
    refine h.pendingNodup.append (List.nodup_singleton _)
      (List.disjoint_singleton.mpr fun hmem => ?_)
    have hsome := h.pendingOpen res hmem
    rw [hfds] at hsome
    cases hsome
  pendingOpen fd hmem := by
    rw [pendingFds_accepted hpos, List.mem_append, List.mem_singleton] at hmem
    rw [fds_completeAccept hpos]
    rcases eq_or_ne fd res with rfl | hne
    · rw [Function.update_self]
      rfl
    · rw [Function.update_of_ne hne]
      exact h.pendingOpen fd (hmem.resolve_right hne)
  pendingFree fd hmem i hi := by
    rw [pendingFds_accepted hpos, List.mem_append, List.mem_singleton] at hmem
    rcases hmem with hmem | rfl
    · exact h.pendingFree fd hmem i hi
    · exact h.ne_of_closed hpos hfds i hi

theorem Descriptors.completeAccept (h : w.Descriptors) (hfds : w.fds res = none) :
    (w.completeAccept j res more).Descriptors :=
  (Int.lt_or_le res 0).elim h.acceptFailed fun hpos => h.accepted hpos hfds

end Accept

/-! ## Whole runs -/

/-- Preparing requests and running send coroutines touches no descriptor. -/
theorem Descriptors.prepare (h : w.Descriptors) {request : Request}
    (hok : w.prepare request = .ok w') : w'.Descriptors := by
  rw [prepare_eq_ok hok]
  exact h.of_eq rfl rfl rfl rfl (List.Sublist.refl _)

theorem Descriptors.setSend (h : w.Descriptors) (k : ℕ) (task : SendTask) :
    (w.setSend k task).Descriptors :=
  h.of_eq rfl rfl rfl rfl (List.Sublist.refl _)

theorem Descriptors.serve (h : w.Descriptors) {conn : ℕ} {replies : List Bytes}
    (hok : w.serve conn replies = .ok w') : w'.Descriptors := by
  induction replies generalizing w with
  | nil => exact Except.ok.inj hok ▸ h
  | cons message replies ih =>
    obtain ⟨w₁, hsend, hrest⟩ := bind_eq_ok hok
    refine ih ?_ hrest
    rcases send_eq_ok hsend with ⟨-, rfl⟩ | ⟨-, rfl⟩ <;>
      exact h.of_eq rfl rfl rfl rfl (List.Sublist.refl _)

/-- **A dispatched completion hands its descriptor over, or closes one, or does neither.** -/
theorem Descriptors.dispatch {replies : List Bytes} {c : Completion} {cq : List Completion}
    (h : w.Descriptors) (hcq : w.cq = c :: cq) {left : ℕ}
    (hok : (w.cqeSeen cq left).dispatch replies c = .ok w') : w'.Descriptors := by
  have hseen := h.cqeSeen hcq left
  obtain ⟨halive, hresumed⟩ := resumed_of_dispatch hok
  cases hresumed with
  | acceptDestroyed =>
    exact hseen.of_eq rfl rfl rfl rfl (List.Sublist.refl _)
  | acceptFailed harm =>
    cases harm with
    | still => exact hseen
    | again hok => exact hseen.prepare hok
  | connected harm hres hrecv =>
    have hfd := h.unclaimed hcq left
    refine Descriptors.prepare ?_ hrecv
    cases harm with
    | still => exact hseen.connect hfd
    | again hok =>
      have harmed := hseen.prepare hok
      rw [prepare_eq_ok hok] at harmed ⊢
      exact harmed.connect ⟨hfd.opened, hfd.free, hfd.notPending⟩
  | left hres => exact hseen.leave halive
  | kept hpos hparse hrecv => exact (hseen.setRaw _ _).prepare hrecv
  | served hpos hparse hserve hrecv => exact ((hseen.setRaw _ _).serve hserve).prepare hrecv
  | sendDestroyed => exact hseen.setSend _ _
  | sendEnded => exact hseen.setSend _ _
  | sendAgain htime hresumed hok => exact (hseen.setSend _ _).prepare hok

theorem Descriptors.step {a : WorkerAction} (h : w.Descriptors) (hst : w.step a = some w') :
    w'.Descriptors := by
  obtain ⟨-, hstepped⟩ := stepped_of_step hst
  have hpost : ∀ (w : Worker) (j : ℕ) (c : Completion), c.newFd = none →
      (w.post j c).pendingFds = w.pendingFds := by
    intro w j c hc
    simp [pendingFds, Worker.post, List.filterMap_append, hc]
  cases hstepped with
  | submit hloop =>
    exact h.of_eq rfl rfl rfl rfl (List.Sublist.refl _)
  | collect =>
    exact h.of_eq rfl rfl rfl rfl (List.Sublist.refl _)
  | dispatch hloop hcq hok => exact h.dispatch hcq hok
  | fault =>
    exact h.of_eq rfl rfl rfl rfl (List.Sublist.refl _)
  | completeAccept hj hroom hfds => exact h.completeAccept hfds
  | @completeRecv j conn res fd packet target hj hroom hanswer =>
    exact h.of_eq rfl rfl rfl rfl
      (by rw [hpost _ j (.recv conn res packet) rfl])
  | @completeSend j k offset length res fd bytes target hj hroom hanswer =>
    exact h.of_eq rfl rfl rfl rfl
      (by rw [hpost _ j (.send k res) rfl]; exact List.Sublist.refl _)

end Worker

theorem descriptors_init : Worker.Descriptors workerSystem.init where
  freshPeer _ _ := rfl
  negative _ _ := rfl
  accepted_lt _ _ h := nomatch h
  injective _ _ _ h := nomatch h
  peer_lt _ _ h := nomatch h
  distinct _ _ _ h := nomatch h
  owns _ h := nomatch h
  hasPeer _ h := nomatch h
  owned _ _ _ h := nomatch h
  pendingNodup := List.nodup_nil
  pendingOpen _ h := nomatch h
  pendingFree _ h := nomatch h

/-- **In every state of every run an open descriptor belongs to one socket or to one completion.**
-/
theorem descriptors_of_visited (run : List WorkerAction) :
    ∀ w ∈ workerSystem.visited run, w.Descriptors :=
  System.forall_visited Worker.Descriptors descriptors_init (fun _ _ _ hw hst => hw.step hst) run

end YServer
