import YServer.BaseNet.Basic
import YServer.Machinery.RingWindow
import YServer.Machinery.Runs

/-!
# BaseNet/IoUring — what the wrapper puts into the submission queue

    io_uring_get_sqe ──▸ slot ──prep──▸ operation ──set_flags──▸ ──set_data──▸ queued request
                                                                                    │ submit
    event_loop:  cqe ──▸ user data ──▸ *sqe_data  ◂──────────── completes ──────── kernel

An entry comes out of the ring with whatever user data its slot was last used with.  Every call
should add the operations it is named after, under user data the event loop can follow.  Accept,
recv, send and splice do, as long as an entry has room for their length; a recv with a timeout
prepares its second operation over its first one, and a cancel is never given user data
(`forall_sound_iff_moves`).
-/

namespace YServer

open Machinery

namespace IoUring

/-- Where a `sqe_data`, a buffer or a socket address lies; never null. -/
abbrev Address := ℕ

def bufferGroupId : ℕ := 0

/-- What an entry of the queue asks the kernel to do. -/
inductive Operation
  | nop
  | multishotAccept (fd : ℤ) (clientAddr clientLen : Address)
  | recv (fd : ℤ) (length : ℕ)
  | send (fd : ℤ) (data : Address) (length : ℕ)
  | splice (fdIn fdOut : ℤ) (length : ℕ)
  | cancel (sqeData : Address)
  | linkTimeout (seconds : ℤ)
  deriving DecidableEq, Repr

/-- …with the flags it goes by. -/
structure Entry where
  operation : Operation
  bufferSelect : Bool := false
  link : Bool := false
  bufGroup : ℕ := 0
  deriving DecidableEq, Repr

/-- The user data of an entry: set for this request, left there by the slot's previous use, or
null. -/
inductive UserData
  | null
  | leftover (sqeData : Address)
  | given (sqeData : Address)
  deriving DecidableEq, Repr

/-- `io_uring_sqe`. -/
structure Sqe where
  entry : Entry
  userData : UserData
  deriving DecidableEq, Repr

/-- What a slot's user data are to its next request. -/
def UserData.leave : UserData → UserData
  | .null => .null
  | .leftover sqeData | .given sqeData => .leftover sqeData

/-- The event loop may follow the pointer. -/
def UserData.Usable : UserData → Prop
  | .given _ => True
  | .null | .leftover _ => False

instance : (data : UserData) → Decidable data.Usable
  | .given _ => isTrue trivial
  | .null | .leftover _ => isFalse id

namespace Sqe

/-- `io_uring_prep_*`: the whole operation is overwritten; the user data stays or becomes null. -/
def prep (sqe : Sqe) (keeps : Bool) (operation : Operation) : Sqe where
  entry := { operation := operation }
  userData := if keeps then sqe.userData.leave else .null

/-- `io_uring_sqe_set_flags(sqe, IOSQE_BUFFER_SELECT)`. -/
def setBufferSelect (sqe : Sqe) : Sqe :=
  { sqe with entry := { sqe.entry with bufferSelect := true, link := false } }

/-- `sqe->buf_group`. -/
def setBufGroup (sqe : Sqe) (bufGroup : ℕ) : Sqe :=
  { sqe with entry := { sqe.entry with bufGroup := bufGroup } }

/-- `io_uring_sqe_set_data`. -/
def setData (sqe : Sqe) (sqeData : Address) : Sqe := { sqe with userData := .given sqeData }

end Sqe

/-- A call of a `submit_*_request` method. -/
inductive Call
  | multishotAccept (sqeData : Address) (fd : ℤ) (clientAddr clientLen : Address)
  | recv (sqeData : Address) (fd : ℤ) (length : ℕ)
  | send (sqeData : Address) (fd : ℤ) (data : Address) (length : ℕ)
  | splice (sqeData : Address) (fdIn fdOut : ℤ) (length : ℕ)
  | cancel (sqeData : Address)
  | recvTimeout (sqeData : Address) (fd : ℤ) (length : ℕ) (seconds : ℤ)
  deriving DecidableEq, Repr

/-- What a call makes of the entry `io_uring_get_sqe` gave it. -/
def Call.fill (sqe : Sqe) (keeps : Bool) : Call → Sqe
  | .multishotAccept sqeData fd clientAddr clientLen =>
    (sqe.prep keeps (.multishotAccept fd clientAddr clientLen)).setData sqeData
  | .recv sqeData fd length =>
    (((sqe.prep keeps (.recv fd (requestedBytes length))).setBufferSelect).setData
      sqeData).setBufGroup bufferGroupId
  | .send sqeData fd data length =>
    (sqe.prep keeps (.send fd data (requestedBytes length))).setData sqeData
  | .splice sqeData fdIn fdOut length =>
    (sqe.prep keeps (.splice fdIn fdOut (requestedBytes length))).setData sqeData
  | .cancel sqeData => sqe.prep keeps (.cancel sqeData)
  | .recvTimeout sqeData fd length seconds =>
    -- the timeout is prepared in the entry of the recv
    (((sqe.prep keeps (.recv fd (requestedBytes length))).prep keeps
      (.linkTimeout seconds)).setBufferSelect.setData sqeData).setBufGroup bufferGroupId

/-- The entries the name of a call asks for. -/
def Call.asks : Call → List Entry
  | .multishotAccept _ fd clientAddr clientLen =>
    [{ operation := .multishotAccept fd clientAddr clientLen }]
  | .recv _ fd length =>
    [{ operation := .recv fd length, bufferSelect := true, bufGroup := bufferGroupId }]
  | .send _ fd data length => [{ operation := .send fd data length }]
  | .splice _ fdIn fdOut length => [{ operation := .splice fdIn fdOut length }]
  | .cancel sqeData => [{ operation := .cancel sqeData }]
  | .recvTimeout _ fd length seconds =>
    [{ operation := .recv fd length, bufferSelect := true, link := true,
        bufGroup := bufferGroupId },
      { operation := .linkTimeout seconds }]

/-! ## The wrapper and the event loop -/

/-- The submission queue from `head` to `tail`, what the calls since the last submission have asked
for, and the requests the kernel has; `faulted` once the event loop has followed a pointer it may
not. -/
structure State where
  sqes : ℕ → Sqe
  head : ℕ
  tail : ℕ
  asked : List Entry
  kernel : List Sqe
  faulted : Bool

inductive Action
  /-- A call; the `prep` of this entry keeps the user data of the slot or not. -/
  | call (call : Call) (keeps : Bool)
  /-- `submit_and_wait`. -/
  | submit
  /-- The event loop takes a completion of a request, after which there may be more of them. -/
  | dispatch (request : ℕ) (more : Bool)
  deriving DecidableEq, Repr

namespace State

/-- The slot of a position. -/
def slot (p : ℕ) : ℕ := p % ioUringQueueSize

/-- The queued requests. -/
def queue (s : State) : List Sqe := window slot s.sqes s.head (s.tail - s.head)

/-- `io_uring_queue_init`. -/
def init : State where
  sqes := fun _ => ⟨{ operation := .nop }, .null⟩
  head := 0
  tail := 0
  asked := []
  kernel := []
  faulted := false

/-- A call on a queue that has room. -/
def call (s : State) (c : Call) (keeps : Bool) : State :=
  { s with
    sqes := Function.update s.sqes (slot s.tail) (c.fill (s.sqes (slot s.tail)) keeps)
    tail := s.tail + 1
    asked := s.asked ++ c.asks }

/-- `io_uring_submit_and_wait` hands the queue to the kernel. -/
def submit (s : State) : State :=
  { s with head := s.tail, asked := [], kernel := s.kernel ++ s.queue }

/-- One turn of the event loop. -/
def dispatch (s : State) (request : ℕ) (more : Bool) (sqe : Sqe) : State :=
  { s with
    kernel := if more then s.kernel else s.kernel.eraseIdx request
    faulted := !decide sqe.userData.Usable }

end State

/-- The calls of a worker, its submissions and the completions it takes, in any order. -/
def system : System State Action where
  init := State.init
  step s
    | .call c keeps =>
      if s.faulted = false ∧ s.tail < s.head + ioUringQueueSize then some (s.call c keeps) else none
    | .submit => if s.faulted = false then some s.submit else none
    | .dispatch request more =>
      if s.faulted = false then s.kernel[request]?.map (s.dispatch request more) else none

/-- **The queue holds what was asked for, and the event loop can follow every pointer it meets.** -/
structure State.Sound (s : State) : Prop where
  asked : s.queue.map Sqe.entry = s.asked
  usable : ∀ sqe ∈ s.queue ++ s.kernel, sqe.userData.Usable
  faultless : s.faulted = false

/-- The calls that do what they are named after. -/
def Action.Complete : Action → Prop
  | .call (.cancel _) _ | .call (.recvTimeout _ _ _ _) _ => False
  | .call (.recv _ _ length) _ | .call (.send _ _ _ length) _ | .call (.splice _ _ _ length) _ =>
    length < UInt32.size
  | .call (.multishotAccept _ _ _ _) _ | .submit | .dispatch _ _ => True

/-! ## One call -/

namespace State

variable {s : State}

/-- A call adds the entry it has filled. -/
theorem queue_call (hle : s.head ≤ s.tail) (hfree : s.tail < s.head + ioUringQueueSize) (c : Call)
    (keeps : Bool) :
    (s.call c keeps).queue = s.queue ++ [c.fill (s.sqes (slot s.tail)) keeps] := by
  have hlen : s.tail + 1 - s.head = s.tail - s.head + 1 := by omega
  have htail : s.head + (s.tail - s.head) = s.tail := by omega
  change window slot (Function.update s.sqes (slot s.tail) _) s.head (s.tail + 1 - s.head) = _
  rw [hlen, window_concat, htail, Function.update_self, window_update_of_ne]
  · rfl
  · intro p hl hr
    exact distinguishes_mod ioUringQueueSize (by omega) (by omega)

theorem queue_submit : s.submit.queue = [] := by
  change window slot s.sqes s.tail (s.tail - s.tail) = []
  rw [Nat.sub_self, window_zero]

end State

/-- A length keeps its value exactly if it has no more than 32 bits. -/
theorem requestedBytes_eq_iff {length : ℕ} :
    requestedBytes length = length ↔ length < UInt32.size :=
  Nat.mod_eq_iff_lt (by decide)

/-- A complete call fills one entry, with what it asks for and usable user data. -/
theorem Call.fill_of_complete {c : Call} {keeps : Bool} (h : (Action.call c keeps).Complete)
    (sqe : Sqe) : [(c.fill sqe keeps).entry] = c.asks ∧ (c.fill sqe keeps).userData.Usable := by
  cases c with
  | multishotAccept => exact ⟨rfl, trivial⟩
  | recv sqeData fd length =>
    rw [fill, requestedBytes_eq_iff.mpr h]
    exact ⟨rfl, trivial⟩
  | send sqeData fd data length =>
    rw [fill, requestedBytes_eq_iff.mpr h]
    exact ⟨rfl, trivial⟩
  | splice sqeData fdIn fdOut length =>
    rw [fill, requestedBytes_eq_iff.mpr h]
    exact ⟨rfl, trivial⟩
  | cancel | recvTimeout => exact h.elim

/-- **The others do not**: a cancel has no user data of its own, a recv with a timeout is one entry
where two were asked for, and a length of more than 32 bits is cut. -/
theorem Call.fill_of_not_complete {c : Call} {keeps : Bool} (h : ¬ (Action.call c keeps).Complete)
    (sqe : Sqe) : [(c.fill sqe keeps).entry] ≠ c.asks ∨ ¬ (c.fill sqe keeps).userData.Usable := by
  have hcut : ∀ {length : ℕ}, ¬ length < UInt32.size → requestedBytes length ≠ length :=
    mt requestedBytes_eq_iff.mp
  cases c with
  | multishotAccept => exact absurd trivial h
  | recv sqeData fd length =>
    refine Or.inl fun heq => hcut h ?_
    injection (congrArg Entry.operation (List.cons.inj heq).1)
  | send sqeData fd data length =>
    refine Or.inl fun heq => hcut h ?_
    injection (congrArg Entry.operation (List.cons.inj heq).1)
  | splice sqeData fdIn fdOut length =>
    refine Or.inl fun heq => hcut h ?_
    injection (congrArg Entry.operation (List.cons.inj heq).1)
  | recvTimeout =>
    exact Or.inl fun heq => absurd (congrArg List.length heq) (show ¬ 1 = 2 by decide)
  | cancel sqeData =>
    refine Or.inr ?_
    cases keeps
    · exact id
    · change ¬ sqe.userData.leave.Usable
      cases sqe.userData <;> exact id

/-! ## Whole runs -/

/-- The states complete calls lead to. -/
structure State.Orderly (s : State) : Prop extends s.Sound where
  le : s.head ≤ s.tail

namespace State

variable {s : State}

theorem orderly_init : State.init.Orderly where
  asked := rfl
  usable := fun _ h => absurd h List.not_mem_nil
  faultless := rfl
  le := Nat.le_refl 0

/-- **A call keeps the queue sound exactly if it fills what it asks for.** -/
theorem Orderly.sound_call_iff (h : s.Orderly) (hfree : s.tail < s.head + ioUringQueueSize)
    (c : Call) (keeps : Bool) : (s.call c keeps).Sound ↔ (Action.call c keeps).Complete := by
  have hqueue := queue_call h.le hfree c keeps
  constructor
  · intro hs
    by_contra hc
    rcases Call.fill_of_not_complete hc (s.sqes (slot s.tail)) with hasks | husable
    · have hasked := hs.asked
      rw [hqueue, List.map_append, h.asked] at hasked
      exact hasks (List.append_cancel_left hasked)
    · refine husable (hs.usable _ ?_)
      rw [hqueue]
      exact List.mem_append_left _ (List.mem_append_right _ List.mem_cons_self)
  · intro hc
    obtain ⟨hasks, husable⟩ := Call.fill_of_complete hc (s.sqes (slot s.tail))
    refine ⟨?_, ?_, h.faultless⟩
    · rw [hqueue, List.map_append, h.asked]
      exact congrArg (s.asked ++ ·) hasks
    · rw [hqueue]
      intro sqe hsqe
      rcases List.mem_append.mp hsqe with hsqe | hkernel
      · rcases List.mem_append.mp hsqe with hqueued | hnew
        · exact h.usable sqe (List.mem_append_left _ hqueued)
        · rw [List.mem_singleton.mp hnew]
          exact husable
      · exact h.usable sqe (List.mem_append_right _ hkernel)

theorem Orderly.submit (h : s.Orderly) : s.submit.Orderly where
  asked := by rw [queue_submit]; rfl
  usable := by
    intro sqe hsqe
    rw [queue_submit, List.nil_append] at hsqe
    rcases List.mem_append.mp hsqe with hkernel | hqueued
    · exact h.usable sqe (List.mem_append_right _ hkernel)
    · exact h.usable sqe (List.mem_append_left _ hqueued)
  faultless := h.faultless
  le := Nat.le_refl _

/-- The event loop follows the pointer of a request the kernel has. -/
theorem Orderly.dispatch (h : s.Orderly) {request : ℕ} {sqe : Sqe}
    (hsqe : s.kernel[request]? = some sqe) (more : Bool) :
    (s.dispatch request more sqe).Orderly where
  asked := h.asked
  usable := by
    intro sqe' hsqe'
    refine h.usable sqe' ?_
    rcases List.mem_append.mp hsqe' with hqueued | hkernel
    · exact List.mem_append_left _ hqueued
    · refine List.mem_append_right _ ?_
      change sqe' ∈ if more then s.kernel else s.kernel.eraseIdx request at hkernel
      split_ifs at hkernel
      · exact hkernel
      · exact List.mem_of_mem_eraseIdx hkernel
  faultless := by
    have husable := h.usable sqe (List.mem_append_right _ (List.mem_of_getElem? hsqe))
    change (!decide sqe.userData.Usable) = false
    rw [decide_eq_true husable]
    rfl
  le := h.le

end State

/-- **The queue holds what was asked for and the event loop follows no bad pointer, in every state
of a run, exactly when the run makes no cancel, no recv with a timeout, and no call with a length of
more than 32 bits** — whatever the calls and their other arguments, and the order in which requests
complete. -/
theorem forall_sound_iff_moves (actions : List Action) :
    (∀ s ∈ system.visited actions, s.Sound) ↔ ∀ m ∈ system.moves actions, m.act.Complete := by
  refine System.forall_visited_iff_moves (S := system) (C := fun _ a => a.Complete) State.Orderly
    State.orderly_init (fun s h => h.toSound) (fun s a t h hstep hC => ?_)
    (fun s a t h hstep hmissed hs => ?_) actions
  · cases a with
    | call c keeps =>
      obtain ⟨⟨-, hfree⟩, hstep⟩ := Option.ite_none_right_eq_some.mp hstep
      obtain rfl := Option.some.inj hstep
      exact ⟨(h.sound_call_iff hfree c keeps).mpr hC, h.le.trans (Nat.le_succ _)⟩
    | submit =>
      obtain ⟨-, hstep⟩ := Option.ite_none_right_eq_some.mp hstep
      obtain rfl := Option.some.inj hstep
      exact h.submit
    | dispatch request more =>
      obtain ⟨-, hstep⟩ := Option.ite_none_right_eq_some.mp hstep
      obtain ⟨sqe, hsqe, rfl⟩ := Option.map_eq_some_iff.mp hstep
      exact h.dispatch hsqe more
  · cases a with
    | call c keeps =>
      obtain ⟨⟨-, hfree⟩, hstep⟩ := Option.ite_none_right_eq_some.mp hstep
      obtain rfl := Option.some.inj hstep
      exact hmissed ((h.sound_call_iff hfree c keeps).mp hs)
    | submit | dispatch => exact hmissed trivial

/-- A recv with a timeout, as `recv_timeout_awaiter` asks for it, and the cancel it makes when it
is resumed. -/
def recvTimeoutThenCancel : List Action :=
  [.call (.recvTimeout 1 5 1024 3) true, .submit, .dispatch 0 false, .call (.cancel 1) true,
    .submit, .dispatch 0 false]

/-- Its queue holds a timeout and no recv, and the event loop follows the null of its cancel. -/
theorem not_sound_recvTimeoutThenCancel :
    (¬ ∀ s ∈ system.visited recvTimeoutThenCancel, s.Sound) ∧
    (State.init.call (.recvTimeout 1 5 1024 3) true).queue.map Sqe.entry
      = [{ operation := .linkTimeout 3, bufferSelect := true }] ∧
    ∃ s ∈ system.run recvTimeoutThenCancel, s.faulted = true := by
  refine ⟨fun h => ?_, rfl, ⟨_, rfl, rfl⟩⟩
  have hs := h (State.init.call (.recvTimeout 1 5 1024 3) true)
    (List.mem_cons_of_mem _ List.mem_cons_self)
  exact absurd (congrArg List.length hs.asked) (show ¬ 1 = 2 by decide)

end IoUring

end YServer
