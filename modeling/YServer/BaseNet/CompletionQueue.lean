import YServer.BaseNet.Basic
import YServer.Machinery.RingWindow
import YServer.Machinery.Runs

/-!
# BaseNet/CompletionQueue — the range loop over the completion ring

    iterator  head ──store──▸ sqe_data ──cqe_seen──▸ khead + 1 ──▸ cqe->res == -ETIME ? ──▸ head + 1
    kernel                                             ╰─ may post into the slot from here on

The iterator counts by itself while `cqe_seen` moves the head the kernel sees; the counters have 32
bits and wrap.  Nothing is skipped or taken twice (`dispatches_in_order`), as what the coroutine
finds is stored before the slot is given back.  The result the loop tests is read afterwards: it is
the completion's own unless the ring was full again by then (`forall_judged_iff`).
-/

namespace YServer

open Machinery

namespace CompletionQueue

/-- `io_uring_cqe`; the user data are the address of a `sqe_data`. -/
structure Cqe where
  userData : ℕ
  res : ℤ
  flags : UInt32
  deriving DecidableEq, Repr

/-- `sqe_data`; the coroutine may be null. -/
structure SqeData where
  coroutine : Option ℕ := none
  cqeRes : ℤ := 0
  cqeFlags : UInt32 := 0
  deriving DecidableEq, Repr

/-- A completion ring of a power of two of slots, as the loop may find it. -/
structure Ring where
  order : ℕ
  order_lt : order < 32
  cqes : ℕ → Cqe
  khead : UInt32
  ktail : UInt32
  le_size : (ktail - khead).toNat ≤ 2 ^ order

/-- Where the event loop stands. -/
inductive LoopPoint
  /-- In `submit_and_wait`. -/
  | waiting
  /-- At the test of the range loop, with the iterator's head and the end's. -/
  | range (head last : UInt32)
  /-- The entry's result and flags are in its `sqe_data`. -/
  | stored (head last : UInt32) (userData : ℕ) (coroutine : Option ℕ)
  /-- Behind `cqe_seen`. -/
  | seen (head last : UInt32) (userData : ℕ) (coroutine : Option ℕ)
  deriving DecidableEq, Repr

/-- A turn of the loop that has been completed: what the coroutine found in its `sqe_data`, and the
result that was compared with `-ETIME`, if any was. -/
structure Dispatched where
  userData : ℕ
  coroutine : Option ℕ
  cqeRes : ℤ
  cqeFlags : UInt32
  tested : Option ℤ
  deriving DecidableEq, Repr

/-- The completion the coroutine was told of. -/
def Dispatched.completion (d : Dispatched) : Cqe := ⟨d.userData, d.cqeRes, d.cqeFlags⟩

/-- The coroutine was destroyed. -/
def Dispatched.Destroyed (d : Dispatched) : Prop := d.tested = some (-etime)

/-- The ring, the loop, and all completions posted since the loop found the ring. -/
structure State where
  cqes : ℕ → Cqe
  khead : UInt32
  ktail : UInt32
  memory : ℕ → SqeData
  point : LoopPoint
  posted : List Cqe
  dispatched : List Dispatched

inductive Action
  /-- The kernel posts a completion. -/
  | post (cqe : Cqe)
  /-- The loop's next step; a coroutine that runs in it leaves the memory like this. -/
  | loop (memory : ℕ → SqeData)

def Action.isLoop : Action → Bool
  | .loop _ => true
  | .post _ => false

/-! ## The code -/

/-- `io_uring_cqe_index`. -/
def slot (order : ℕ) (head : UInt32) : ℕ := (head &&& UInt32.ofNat (2 ^ order - 1)).toNat

/-- The entries between the two counters. -/
def pending (order : ℕ) (cqes : ℕ → Cqe) (khead ktail : UInt32) : List Cqe :=
  (List.range (ktail - khead).toNat).map fun i => cqes (slot order (khead + UInt32.ofNat i))

namespace State

/-- `sqe_data->cqe_res = cqe->res`, and the flags. -/
def store (s : State) (cqe : Cqe) : ℕ → SqeData :=
  Function.update s.memory cqe.userData
    { s.memory cqe.userData with cqeRes := cqe.res, cqeFlags := cqe.flags }

/-- The resume-or-destroy decision, with what it leaves behind. -/
def judge (s : State) (order : ℕ) (head last : UInt32) (userData : ℕ) (coroutine : Option ℕ)
    (memory : ℕ → SqeData) : State :=
  let found := s.memory userData
  let tested := coroutine.map fun _ => (s.cqes (slot order head)).res
  { s with
    memory := if coroutine.isSome then memory else s.memory
    point := .range (head + 1) last
    dispatched := s.dispatched ++ [⟨userData, coroutine, found.cqeRes, found.cqeFlags, tested⟩] }

/-- One step of `event_loop`. -/
def loop (s : State) (order : ℕ) (memory : ℕ → SqeData) : State :=
  match s.point with
  | .waiting => { s with point := .range s.khead s.ktail }
  | .range head last =>
    if head ≠ last then
      let cqe := s.cqes (slot order head)
      { s with
        memory := s.store cqe
        point := .stored head last cqe.userData (s.memory cqe.userData).coroutine }
    else { s with point := .waiting }
  | .stored head last userData coroutine =>
    { s with khead := s.khead + 1, point := .seen head last userData coroutine }
  | .seen head last userData coroutine => s.judge order head last userData coroutine memory

/-- The kernel writes an entry and moves the tail. -/
def post (s : State) (order : ℕ) (cqe : Cqe) : State :=
  { s with
    cqes := Function.update s.cqes (slot order s.ktail) cqe
    ktail := s.ktail + 1
    posted := s.posted ++ [cqe] }

end State

/-- The loop and the kernel, from a ring on. -/
def system (ring : Ring) (memory : ℕ → SqeData) : System State Action where
  init :=
    { cqes := ring.cqes
      khead := ring.khead
      ktail := ring.ktail
      memory := memory
      point := .waiting
      posted := pending ring.order ring.cqes ring.khead ring.ktail
      dispatched := [] }
  step s
    | .post cqe =>
      if (s.ktail - s.khead).toNat < 2 ^ ring.order then some (s.post ring.order cqe) else none
    | .loop memory => some (s.loop ring.order memory)

/-! ## The counters as positions -/

namespace State

variable {order base last : ℕ} {s : State}

/-- How many completions the loop has given back. -/
def taken (s : State) : ℕ :=
  s.dispatched.length + match s.point with
    | .seen _ _ _ _ => 1
    | .waiting | .range _ _ | .stored _ _ _ _ => 0

/-- What the loop's variables are at a point, in a pass that ends with the `last`-th completion. -/
def At (base last : ℕ) (s : State) : LoopPoint → Prop
  | .waiting => s.dispatched.length = last
  | .range head last' =>
    head = UInt32.ofNat (base + s.dispatched.length) ∧ last' = UInt32.ofNat (base + last) ∧
      s.dispatched.length ≤ last ∧ last ≤ s.posted.length
  | .stored head last' userData coroutine | .seen head last' userData coroutine =>
    head = UInt32.ofNat (base + s.dispatched.length) ∧ last' = UInt32.ofNat (base + last) ∧
      s.dispatched.length < last ∧ last ≤ s.posted.length ∧
      ∃ cqe, s.posted[s.dispatched.length]? = some cqe ∧ cqe.userData = userData ∧
        s.memory userData = ⟨coroutine, cqe.res, cqe.flags⟩

/-- **The invariant**: counters, slots and the loop's variables follow the completions posted since
the loop found the ring with its head at position `base`. -/
structure Tracks (order base last : ℕ) (s : State) : Prop where
  khead : s.khead = UInt32.ofNat (base + s.taken)
  ktail : s.ktail = UInt32.ofNat (base + s.posted.length)
  taken_le : s.taken ≤ s.posted.length
  room : s.posted.length ≤ s.taken + 2 ^ order
  latest : HoldsLatest (fun p => p % 2 ^ order) s.cqes base (2 ^ order) s.posted
  dispatched : s.dispatched.map Dispatched.completion = s.posted.take s.dispatched.length
  here : s.At base last s.point

section Points

variable {head last' : UInt32} {userData : ℕ} {coroutine : Option ℕ} {memory : ℕ → SqeData}

theorem taken_of_range (h : s.point = .range head last') : s.taken = s.dispatched.length := by
  simp only [taken, h, Nat.add_zero]

theorem taken_of_stored (h : s.point = .stored head last' userData coroutine) :
    s.taken = s.dispatched.length := by
  simp only [taken, h, Nat.add_zero]

theorem taken_of_seen (h : s.point = .seen head last' userData coroutine) :
    s.taken = s.dispatched.length + 1 := by
  simp only [taken, h]

theorem taken_of_waiting (h : s.point = .waiting) : s.taken = s.dispatched.length := by
  simp only [taken, h, Nat.add_zero]

theorem loop_of_waiting (h : s.point = .waiting) :
    s.loop order memory = { s with point := .range s.khead s.ktail } := by
  simp only [loop, h]

theorem loop_of_range_ne (h : s.point = .range head last') (hne : head ≠ last') :
    s.loop order memory = { s with
      memory := s.store (s.cqes (slot order head))
      point := .stored head last' (s.cqes (slot order head)).userData
        (s.memory (s.cqes (slot order head)).userData).coroutine } := by
  simp only [loop, h, if_pos hne]

theorem loop_of_range_eq (h : s.point = .range head head) :
    s.loop order memory = { s with point := .waiting } := by
  simp only [loop, h, ne_eq, not_true_eq_false, if_false]

theorem loop_of_stored (h : s.point = .stored head last' userData coroutine) :
    s.loop order memory
      = { s with khead := s.khead + 1, point := .seen head last' userData coroutine } := by
  simp only [loop, h]

theorem loop_of_seen (h : s.point = .seen head last' userData coroutine) :
    s.loop order memory = s.judge order head last' userData coroutine memory := by
  simp only [loop, h]

/-- The loop posts nothing. -/
@[simp] theorem posted_loop : (s.loop order memory).posted = s.posted := by
  rw [loop]
  split
  · rfl
  · split_ifs <;> rfl
  · rfl
  · rfl

end Points

theorem slot_ofNat (h : order < 32) (p : ℕ) : slot order (UInt32.ofNat p) = p % 2 ^ order :=
  toNat_ofNat_and_mask h p

theorem two_pow_lt (h : order < 32) : 2 ^ order < 2 ^ 32 := Nat.pow_lt_pow_right (by decide) h

/-- Between two counters that are positions lies the window between these. -/
theorem pending_ofNat (h : order < 32) (cqes : ℕ → Cqe) {p n : ℕ} (hn : n < 2 ^ 32) :
    pending order cqes (UInt32.ofNat p) (UInt32.ofNat (p + n))
      = window (fun p => p % 2 ^ order) cqes p n := by
  rw [pending, toNat_ofNat_add_sub hn, window, List.range'_eq_map_range, List.map_map]
  refine List.map_congr_left fun i _ => ?_
  rw [← UInt32.ofNat_add, slot_ofNat h]
  rfl

namespace Tracks

/-- The kernel's view of the ring. -/
theorem distance (h : s.Tracks order base last) (ho : order < 32) :
    (s.ktail - s.khead).toNat = s.posted.length - s.taken := by
  have hle := h.taken_le
  have hroom := h.room
  have hlt := two_pow_lt ho
  have heq : base + s.posted.length = base + s.taken + (s.posted.length - s.taken) := by omega
  rw [h.ktail, h.khead, heq, toNat_ofNat_add_sub (by omega)]

/-- A completion is posted behind the others, at a slot that none of the last ones is in. -/
theorem post (h : s.Tracks order base last) (ho : order < 32)
    (hroom : (s.ktail - s.khead).toNat < 2 ^ order) (cqe : Cqe) :
    (s.post order cqe).Tracks order base last := by
  rw [h.distance ho] at hroom
  have hle := h.taken_le
  have hdispatched := congrArg List.length h.dispatched
  rw [List.length_map, List.length_take] at hdispatched
  refine ⟨h.khead, ?_, ?_, ?_, ?_, ?_, ?_⟩
  · change s.ktail + 1 = UInt32.ofNat (base + (s.posted ++ [cqe]).length)
    rw [h.ktail, List.length_append, ← Nat.add_assoc, UInt32.ofNat_add _ [cqe].length]
    rfl
  · exact hle.trans (by simp [State.post])
  · change (s.posted ++ [cqe]).length ≤ s.taken + 2 ^ order
    rw [List.length_append, List.length_singleton]
    omega
  · change HoldsLatest _ (Function.update s.cqes (slot order s.ktail) cqe) base _ _
    rw [h.ktail, slot_ofNat ho]
    exact h.latest.concat (distinguishes_mod _) cqe
  · change _ = (s.posted ++ [cqe]).take s.dispatched.length
    rw [List.take_append_of_le_length (by omega)]
    exact h.dispatched
  · have hhere := h.here
    have hlen : s.posted.length ≤ (s.posted ++ [cqe]).length := by simp
    obtain ⟨cqes, khead, ktail, memory, point, posted, dispatched⟩ := s
    cases point with
    | waiting => exact hhere
    | range head last' =>
      obtain ⟨hhead, hlast, hd, hl⟩ := hhere
      exact ⟨hhead, hlast, hd, hl.trans hlen⟩
    | stored head last' userData coroutine | seen head last' userData coroutine =>
      obtain ⟨hhead, hlast, hd, hl, own, hown, hdata⟩ := hhere
      exact ⟨hhead, hlast, hd, hl.trans hlen, own,
        (List.getElem?_append_left (hd.trans_le hl)).trans hown, hdata⟩

/-- In the range loop the iterator is at the end exactly behind the last completion of the pass. -/
theorem head_eq_last_iff (h : s.Tracks order base last) (ho : order < 32) {head last' : UInt32}
    (hpoint : s.point = .range head last') : head = last' ↔ s.dispatched.length = last := by
  have hhere := h.here
  have hroom := h.room
  rw [taken_of_range hpoint] at hroom
  rw [hpoint] at hhere
  obtain ⟨rfl, rfl, hd, hl⟩ := hhere
  have hlt := two_pow_lt ho
  have heq : base + last = base + s.dispatched.length + (last - s.dispatched.length) := by omega
  rw [heq, ofNat_eq_ofNat_add_iff (by omega)]
  omega

/-- **The loop enters a pass**, for the completions posted so far. -/
theorem loop_waiting (h : s.Tracks order base last) (hpoint : s.point = .waiting)
    (memory : ℕ → SqeData) : (s.loop order memory).Tracks order base s.posted.length := by
  have hkhead := h.khead
  have htaken := h.taken_le
  have hroom := h.room
  rw [taken_of_waiting hpoint] at hkhead htaken hroom
  rw [loop_of_waiting hpoint]
  exact ⟨hkhead, h.ktail, htaken, hroom, h.latest, h.dispatched, hkhead, h.ktail, htaken,
    Nat.le_refl _⟩

/-- The values of the next completion are stored under its user data. -/
theorem loop_range (h : s.Tracks order base last) (ho : order < 32) {head last' : UInt32}
    (hpoint : s.point = .range head last') (memory : ℕ → SqeData) :
    (s.loop order memory).Tracks order base last := by
  have hkhead := h.khead
  have htaken := h.taken_le
  have hroom := h.room
  have hhere := h.here
  have hend := h.head_eq_last_iff ho hpoint
  rw [taken_of_range hpoint] at hkhead htaken hroom
  rw [hpoint] at hhere
  obtain ⟨hhead, hlast, hd, hl⟩ := hhere
  by_cases hne : head = last'
  · subst hne
    rw [loop_of_range_eq hpoint]
    exact ⟨hkhead, h.ktail, htaken, hroom, h.latest, h.dispatched, hend.mp rfl⟩
  · have hlt : s.dispatched.length < last := lt_of_le_of_ne hd fun heq => hne (hend.mpr heq)
    have hentry : s.posted[s.dispatched.length]? = some (s.cqes (slot order head)) := by
      rw [hhead, slot_ofNat ho]
      exact h.latest _ (hlt.trans_le hl) hroom
    rw [loop_of_range_ne hpoint hne]
    exact ⟨hkhead, h.ktail, htaken, hroom, h.latest, h.dispatched, hhead, hlast, hlt, hl, _, hentry,
      rfl, Function.update_self _ _ _⟩

/-- `cqe_seen` gives its slot back. -/
theorem loop_stored (h : s.Tracks order base last) {head last' : UInt32} {userData : ℕ}
    {coroutine : Option ℕ} (hpoint : s.point = .stored head last' userData coroutine)
    (memory : ℕ → SqeData) : (s.loop order memory).Tracks order base last := by
  have hkhead := h.khead
  have hroom := h.room
  have hhere := h.here
  rw [taken_of_stored hpoint] at hkhead hroom
  rw [hpoint] at hhere
  obtain ⟨hhead, hlast, hd, hl, hown⟩ := hhere
  rw [loop_of_stored hpoint]
  refine ⟨?_, h.ktail, hd.trans_le hl, ?_, h.latest, h.dispatched, hhead, hlast, hd, hl, hown⟩
  · change s.khead + 1 = UInt32.ofNat (base + s.dispatched.length + 1)
    rw [UInt32.ofNat_add, ← hkhead]
    rfl
  · exact hroom.trans (Nat.add_le_add_right (Nat.le_succ _) _)

/-- **The decision ends a turn**: one completion more has been dispatched, with its own values. -/
theorem loop_seen (h : s.Tracks order base last) {head last' : UInt32} {userData : ℕ}
    {coroutine : Option ℕ} (hpoint : s.point = .seen head last' userData coroutine)
    (memory : ℕ → SqeData) : (s.loop order memory).Tracks order base last := by
  have hkhead := h.khead
  have htaken := h.taken_le
  have hroom := h.room
  have hhere := h.here
  rw [taken_of_seen hpoint] at hkhead htaken hroom
  rw [hpoint] at hhere
  obtain ⟨hhead, hlast, hd, hl, own, hown, rfl, hdata⟩ := hhere
  have hlen : ∀ d : Dispatched, (s.dispatched ++ [d]).length = s.dispatched.length + 1 := by simp
  rw [loop_of_seen hpoint]
  refine ⟨?_, h.ktail, ?_, ?_, h.latest, ?_, ?_, hlast, ?_, hl⟩
  · change s.khead = UInt32.ofNat (base + (s.dispatched ++ [_]).length)
    rw [hlen]
    exact hkhead
  · change (s.dispatched ++ [_]).length ≤ s.posted.length
    rw [hlen]
    exact htaken
  · change s.posted.length ≤ (s.dispatched ++ [_]).length + 2 ^ order
    rw [hlen]
    exact hroom
  · change (s.dispatched ++ [_]).map _ = s.posted.take (s.dispatched ++ [_]).length
    rw [hlen, List.take_add_one, hown, List.map_append, h.dispatched, hdata]
    rfl
  · change head + 1 = UInt32.ofNat (base + (s.dispatched ++ [_]).length)
    rw [hlen, hhead, ← Nat.add_assoc, UInt32.ofNat_add _ 1]
    rfl
  · change (s.dispatched ++ [_]).length ≤ last
    rw [hlen]
    exact hd

/-- **A step of the loop inside a pass.** -/
theorem loop (h : s.Tracks order base last) (ho : order < 32) (hpoint : s.point ≠ .waiting)
    (memory : ℕ → SqeData) : (s.loop order memory).Tracks order base last := by
  cases hp : s.point with
  | waiting => exact absurd hp hpoint
  | range head last' => exact h.loop_range ho hp memory
  | stored head last' userData coroutine => exact h.loop_stored hp memory
  | seen head last' userData coroutine => exact h.loop_seen hp memory

end Tracks

/-- How many steps of the loop the pass still has. -/
def stepsLeft (last : ℕ) (s : State) : ℕ :=
  match s.point with
  | .waiting => 0
  | .range _ _ => 3 * (last - s.dispatched.length) + 1
  | .stored _ _ _ _ => 3 * (last - s.dispatched.length)
  | .seen _ _ _ _ => 3 * (last - s.dispatched.length) - 1

/-- The pass has ended when it has no steps left. -/
theorem Tracks.stepsLeft_eq_zero_iff (h : s.Tracks order base last) :
    s.stepsLeft last = 0 ↔ s.point = .waiting := by
  have hhere := h.here
  cases hp : s.point with
  | waiting => simp [stepsLeft, hp]
  | range head last' => simp [stepsLeft, hp]
  | stored head last' userData coroutine | seen head last' userData coroutine =>
    rw [hp] at hhere
    have hd := hhere.2.2.1
    refine iff_of_false ?_ nofun
    simp only [stepsLeft, hp]
    omega

/-- **Every step of the loop brings the end of the pass nearer.** -/
theorem Tracks.stepsLeft_loop (h : s.Tracks order base last) (ho : order < 32)
    (hpoint : s.point ≠ .waiting) (memory : ℕ → SqeData) :
    (s.loop order memory).stepsLeft last + 1 = s.stepsLeft last := by
  have hhere := h.here
  cases hp : s.point with
  | waiting => exact absurd hp hpoint
  | range head last' =>
    have hend := h.head_eq_last_iff ho hp
    by_cases hne : head = last'
    · subst hne
      rw [loop_of_range_eq hp]
      simp only [stepsLeft, hp, hend.mp rfl, Nat.sub_self]
    · rw [loop_of_range_ne hp hne]
      simp only [stepsLeft, hp]
  | stored head last' userData coroutine =>
    rw [hp] at hhere
    have hd := hhere.2.2.1
    rw [loop_of_stored hp]
    simp only [stepsLeft, hp]
    omega
  | seen head last' userData coroutine =>
    rw [hp] at hhere
    have hd := hhere.2.2.1
    rw [loop_of_seen hp]
    simp only [stepsLeft, hp, judge, List.length_append, List.length_singleton]
    omega

end State

/-! ## Whole runs -/

section Runs

variable (ring : Ring) (memory : ℕ → SqeData)

theorem tracks_init : (system ring memory).init.Tracks ring.order ring.khead.toNat 0 := by
  have hlt := State.two_pow_lt ring.order_lt
  have hle := ring.le_size
  have hkhead : UInt32.ofNat ring.khead.toNat = ring.khead := UInt32.ofNat_toNat
  have hktail : UInt32.ofNat (ring.khead.toNat + (ring.ktail - ring.khead).toNat) = ring.ktail := by
    rw [UInt32.ofNat_add, UInt32.ofNat_toNat, UInt32.ofNat_toNat, UInt32.add_comm,
      UInt32.sub_add_cancel]
  have hposted := State.pending_ofNat ring.order_lt ring.cqes (p := ring.khead.toNat)
    (n := (ring.ktail - ring.khead).toNat) (by omega)
  rw [hkhead, hktail] at hposted
  have hlen := length_window (fun p => p % 2 ^ ring.order) ring.cqes ring.khead.toNat
    (ring.ktail - ring.khead).toNat
  rw [← hposted] at hlen
  refine ⟨hkhead.symm, ?_, Nat.zero_le _, ?_, ?_, rfl, rfl⟩
  · change ring.ktail = UInt32.ofNat (ring.khead.toNat + (pending _ _ _ _).length)
    rw [hlen, hktail]
  · change (pending _ _ _ _).length ≤ 0 + 2 ^ ring.order
    rw [hlen, Nat.zero_add]
    exact hle
  · change HoldsLatest _ ring.cqes _ _ (pending _ _ _ _)
    rw [hposted]
    exact holdsLatest_window _ _ _ _ _

variable {ring memory} {base last : ℕ} {s t : State} {a : Action}

/-- A step, whichever side takes it. -/
theorem step_cases (hst : (system ring memory).step s a = some t) :
    (∃ cqe, a = .post cqe ∧ (s.ktail - s.khead).toNat < 2 ^ ring.order ∧
        t = s.post ring.order cqe) ∨
      ∃ after, a = .loop after ∧ t = s.loop ring.order after := by
  cases a with
  | post cqe =>
    obtain ⟨hroom, h⟩ := Option.ite_none_right_eq_some.mp hst
    exact Or.inl ⟨cqe, rfl, hroom, (Option.some.inj h).symm⟩
  | loop after => exact Or.inr ⟨after, rfl, (Option.some.inj hst).symm⟩

theorem tracks_step (h : ∃ last, s.Tracks ring.order base last)
    (hst : (system ring memory).step s a = some t) : ∃ last, t.Tracks ring.order base last := by
  obtain ⟨last, h⟩ := h
  rcases step_cases hst with ⟨cqe, rfl, hroom, rfl⟩ | ⟨after, rfl, rfl⟩
  · exact ⟨last, h.post ring.order_lt hroom cqe⟩
  · by_cases hpoint : s.point = .waiting
    · exact ⟨_, h.loop_waiting hpoint after⟩
    · exact ⟨last, h.loop ring.order_lt hpoint after⟩

theorem tracks_of_visited (as : List Action) : ∀ s ∈ (system ring memory).visited as,
    ∃ last, s.Tracks ring.order ring.khead.toNat last :=
  System.forall_visited _ ⟨0, tracks_init ring memory⟩ (fun _ _ _ h hst => tracks_step h hst) as

/-- **A pass under way** — by induction on its steps: what it will end with stays, and its end comes
nearer by the loop's own steps only. -/
theorem tracks_pass {rest : List Action} : ∀ {s : State}, s.Tracks ring.order base last →
    (system ring memory).runFrom s rest = some t →
    (∀ m ∈ (system ring memory).movesFrom s rest, m.src.point ≠ .waiting) →
    t.Tracks ring.order base last ∧ s.posted <+: t.posted ∧
      rest.countP Action.isLoop + t.stepsLeft last = s.stepsLeft last := by
  induction rest with
  | nil =>
    intro s h hrun _
    obtain rfl := Option.some.inj hrun
    exact ⟨h, List.prefix_rfl, Nat.zero_add _⟩
  | cons a rest ih =>
    intro s h hrun hinside
    obtain ⟨u, hst, hrest⟩ := Option.bind_eq_some_iff.mp hrun
    rw [System.movesFrom_cons_of_step _ hst, List.forall_mem_cons] at hinside
    obtain ⟨hpoint, hinside⟩ := hinside
    rcases step_cases hst with ⟨cqe, rfl, hroom, rfl⟩ | ⟨after, rfl, rfl⟩
    · obtain ⟨ht, hposted, hsteps⟩ := ih (h.post ring.order_lt hroom cqe) hrest hinside
      exact ⟨ht, (List.prefix_append _ _).trans hposted, hsteps⟩
    · obtain ⟨ht, hposted, hsteps⟩ := ih (h.loop ring.order_lt hpoint after) hrest hinside
      have hloop := h.stepsLeft_loop ring.order_lt hpoint after
      rw [State.posted_loop] at hposted
      refine ⟨ht, hposted, ?_⟩
      rw [List.countP_cons_of_pos rfl]
      omega

/-- What lies in the ring when the loop waits has not been dispatched, all else has. -/
theorem dispatched_append_pending (h : s.Tracks ring.order base last)
    (hpoint : s.point = .waiting) :
    s.dispatched.map Dispatched.completion ++ pending ring.order s.cqes s.khead s.ktail
      = s.posted := by
  have htaken := h.taken_le
  have hroom := h.room
  have hlt := State.two_pow_lt ring.order_lt
  rw [State.taken_of_waiting hpoint] at htaken hroom
  obtain ⟨n, hn⟩ := Nat.exists_eq_add_of_le htaken
  have hpending : pending ring.order s.cqes s.khead s.ktail
      = s.posted.drop s.dispatched.length := by
    rw [h.khead, h.ktail, State.taken_of_waiting hpoint, hn, ← Nat.add_assoc,
      State.pending_ofNat ring.order_lt s.cqes (by omega)]
    refine List.ext_getElem? fun i => ?_
    rw [List.getElem?_drop]
    rcases Nat.lt_or_ge i n with hi | hi
    · rw [h.latest _ (by omega) (by omega), window, List.getElem?_map, List.getElem?_range' hi,
        Nat.one_mul, Nat.add_assoc]
      rfl
    · rw [List.getElem?_eq_none (by rw [length_window]; exact hi),
        List.getElem?_eq_none (by omega)]
  rw [hpending, h.dispatched, List.take_append_drop]

/-- **One pass of the range loop**, from where it waits to where it waits again: it takes three
steps for each completion it found, dispatches these in their order and no others, and leaves the
head at the tail it started with. -/
def Passes (ring : Ring) (memory : ℕ → SqeData) (s : State) : Prop :=
  ∀ after rest t, (system ring memory).runFrom s (.loop after :: rest) = some t →
    (∀ m ∈ (system ring memory).movesFrom (s.loop ring.order after) rest, m.src.point ≠ .waiting) →
    (t.point = .waiting ↔
      rest.countP Action.isLoop = 3 * (pending ring.order s.cqes s.khead s.ktail).length + 1) ∧
    (t.point = .waiting → t.khead = s.ktail ∧
      t.dispatched.map Dispatched.completion
        = s.dispatched.map Dispatched.completion ++ pending ring.order s.cqes s.khead s.ktail)

theorem passes_of_tracks (h : s.Tracks ring.order base last) (hpoint : s.point = .waiting) :
    Passes ring memory s := by
  intro after rest t hrun hinside
  have hposted := dispatched_append_pending h hpoint
  have hlen := congrArg List.length hposted
  rw [List.length_append, List.length_map] at hlen
  obtain ⟨ht, hprefix, hsteps⟩ := tracks_pass (h.loop_waiting hpoint after) hrun hinside
  have hhere := ht.here
  have hstart : (s.loop ring.order after).stepsLeft s.posted.length
      = 3 * (pending ring.order s.cqes s.khead s.ktail).length + 1 := by
    rw [State.loop_of_waiting hpoint]
    simp only [State.stepsLeft]
    omega
  rw [hstart] at hsteps
  refine ⟨?_, fun hwait => ?_⟩
  · rw [← ht.stepsLeft_eq_zero_iff]
    omega
  · rw [hwait] at hhere
    rw [State.posted_loop] at hprefix
    have hdone : t.dispatched.length = s.posted.length := hhere
    refine ⟨?_, ?_⟩
    · rw [ht.khead, State.taken_of_waiting hwait, hdone, h.ktail]
    · obtain ⟨more, hmore⟩ := hprefix
      rw [ht.dispatched, hdone, ← hmore, List.take_left, hposted]

/-- **Each completion is consumed exactly once, in posting order** — over any ring, any counters,
and any number of passes with the kernel posting in between; and every pass takes what it found. -/
theorem dispatches_in_order (ring : Ring) (memory : ℕ → SqeData) {as : List Action} {s : State}
    (hrun : (system ring memory).run as = some s) :
    s.dispatched.map Dispatched.completion <+: s.posted ∧
      (s.point = .waiting →
        s.dispatched.map Dispatched.completion ++ pending ring.order s.cqes s.khead s.ktail
          = s.posted ∧ Passes ring memory s) := by
  obtain ⟨last, h⟩ := tracks_of_visited as s (System.mem_visited_of_run _ hrun)
  refine ⟨?_, fun hpoint => ⟨dispatched_append_pending h hpoint, passes_of_tracks h hpoint⟩⟩
  rw [h.dispatched]
  exact List.take_prefix _ _

end Runs

/-- Two completions in a ring of two, with the counters about to wrap. -/
def wrappingRing : Ring where
  order := 1
  order_lt := by decide
  cqes := fun i => ⟨i, 7, 0⟩
  khead := 0xffffffff
  ktail := 1
  le_size := by decide

/-- A pass, with a completion posted into the first slot it gives back. -/
def wrappingPass : List Action :=
  let turn : Action := .loop fun _ => {}
  [turn, turn, turn, .post ⟨4, 9, 0⟩, turn, turn, turn, turn, turn]

/-- It takes the two it found, and the third is left for the next one. -/
theorem dispatches_in_order_wrappingRing :
    ∃ s, (system wrappingRing fun _ => {}).run wrappingPass = some s ∧
      s.dispatched.map Dispatched.completion = [⟨1, 7, 0⟩, ⟨0, 7, 0⟩] ∧
      s.dispatched.map Dispatched.completion <+: s.posted ∧
      s.dispatched.map Dispatched.completion ++ pending 1 s.cqes s.khead s.ktail = s.posted ∧
        Passes wrappingRing (fun _ => {}) s := by
  obtain ⟨s, hrun, hpoint, hdispatched⟩ : ∃ s,
      (system wrappingRing fun _ => {}).run wrappingPass = some s ∧ s.point = .waiting ∧
        s.dispatched.map Dispatched.completion = [⟨1, 7, 0⟩, ⟨0, 7, 0⟩] := ⟨_, rfl, rfl, rfl⟩
  obtain ⟨horder, hpass⟩ := dispatches_in_order wrappingRing (fun _ => {}) hrun
  exact ⟨s, hrun, hdispatched, horder, hpass hpoint⟩

/-! ## Whose result is tested -/

/-- **A turn of the loop judged its own completion.** -/
structure Dispatched.JudgedBy (d : Dispatched) (cqe : Cqe) : Prop where
  completion : d.completion = cqe
  tested : d.tested = d.coroutine.map fun _ => cqe.res
  /-- The coroutine was destroyed if and only if its own request timed out. -/
  destroyed_iff : d.Destroyed ↔ d.coroutine.isSome ∧ cqe.res = -etime

/-- The turns so far have judged the completions posted, one after the other. -/
def State.Judged (s : State) : Prop :=
  ∀ (i : ℕ) (d : Dispatched), s.dispatched[i]? = some d →
    ∃ cqe, s.posted[i]? = some cqe ∧ d.JudgedBy cqe

/-- The condition on a step: when the loop decides on a coroutine the ring is not full, or else the
completion posted last has the same result. -/
def State.OwnResult (order : ℕ) (s : State) (a : Action) : Prop :=
  match s.point, a with
  | .seen _ _ userData (some _), .loop _ =>
    (s.ktail - s.khead).toNat = 2 ^ order →
      ∀ cqe ∈ s.posted.getLast?, cqe.res = (s.memory userData).cqeRes
  | _, _ => True

theorem Dispatched.judgedBy_of_tested {d : Dispatched} {cqe : Cqe} (hown : d.completion = cqe)
    (htested : d.tested = d.coroutine.map fun _ => cqe.res) : d.JudgedBy cqe where
  completion := hown
  tested := htested
  destroyed_iff := by
    rw [Destroyed, htested]
    cases d.coroutine <;> simp

section Judged

variable {ring : Ring} {base last : ℕ} {s : State} {head last' : UInt32} {userData : ℕ}
  {coroutine : Option ℕ}

/-- **What is in the slot behind `cqe_seen`**: the completion still, unless the ring is full again
and the one posted last is there. -/
theorem State.Tracks.entry_seen (h : s.Tracks ring.order base last)
    (hpoint : s.point = .seen head last' userData coroutine) :
    if (s.ktail - s.khead).toNat = 2 ^ ring.order then
      s.posted.getLast? = some (s.cqes (slot ring.order head))
    else s.posted[s.dispatched.length]? = some (s.cqes (slot ring.order head)) := by
  have hdistance := h.distance ring.order_lt
  have htaken := h.taken_le
  have hroom := h.room
  have hhere := h.here
  rw [hpoint] at hhere
  rw [State.taken_of_seen hpoint] at hdistance htaken hroom
  rw [hdistance, hhere.1, State.slot_ofNat ring.order_lt]
  split_ifs with hfull
  · have hpos := Nat.two_pow_pos ring.order
    have hlast : s.posted.length - 1 = s.dispatched.length + 2 ^ ring.order := by omega
    have hentry := h.latest (s.dispatched.length + 2 ^ ring.order) (by omega) (by omega)
    rw [List.getLast?_eq_getElem?, hlast, hentry, ← Nat.add_assoc]
    exact congrArg (fun p => some (s.cqes p)) (Nat.add_mod_right _ _)
  · exact h.latest _ (by omega) (by omega)

/-- The completion a turn is about. -/
theorem State.Tracks.own_seen (h : s.Tracks ring.order base last)
    (hpoint : s.point = .seen head last' userData coroutine) :
    ∃ cqe, s.posted[s.dispatched.length]? = some cqe ∧ cqe.userData = userData ∧
      s.memory userData = ⟨coroutine, cqe.res, cqe.flags⟩ := by
  have hhere := h.here
  rw [hpoint] at hhere
  exact hhere.2.2.2.2

/-- One more turn: the others stay as they were. -/
theorem State.Judged.concat_iff (h : s.Judged) {own : Cqe}
    (hown : s.posted[s.dispatched.length]? = some own) {t : State} {d : Dispatched}
    (hposted : t.posted = s.posted) (hdispatched : t.dispatched = s.dispatched ++ [d]) :
    t.Judged ↔ d.JudgedBy own := by
  rw [State.Judged, hposted, hdispatched]
  constructor
  · intro hall
    obtain ⟨cqe, hcqe, hd⟩ := hall s.dispatched.length d List.getElem?_concat_length
    obtain rfl := Option.some.inj (hown.symm.trans hcqe)
    exact hd
  · intro hlast i e he
    rcases Nat.lt_or_ge i s.dispatched.length with hi | hi
    · exact h i e ((List.getElem?_append_left hi).symm.trans he)
    · obtain ⟨hlt, -⟩ := List.getElem?_eq_some_iff.mp he
      rw [List.length_append, List.length_singleton] at hlt
      obtain rfl : i = s.dispatched.length := by omega
      obtain rfl := Option.some.inj (List.getElem?_concat_length.symm.trans he)
      exact ⟨own, hown, hlast⟩

/-- **A turn ends with its own result exactly under the condition.** -/
theorem State.Tracks.judged_seen_iff (h : s.Tracks ring.order base last) (hjudged : s.Judged)
    (hpoint : s.point = .seen head last' userData coroutine) (memory : ℕ → SqeData) :
    (s.loop ring.order memory).Judged ↔ s.OwnResult ring.order (.loop memory) := by
  obtain ⟨own, hown, rfl, hdata⟩ := h.own_seen hpoint
  have hentry := h.entry_seen hpoint
  have hturn : (s.loop ring.order memory).Judged ↔
      coroutine.map (fun _ => (s.cqes (slot ring.order head)).res)
        = coroutine.map fun _ => own.res := by
    have hdispatched : (s.loop ring.order memory).dispatched = s.dispatched ++
        [⟨own.userData, coroutine, own.res, own.flags,
          coroutine.map fun _ => (s.cqes (slot ring.order head)).res⟩] := by
      rw [State.loop_of_seen hpoint]
      simp only [judge, hdata]
    rw [hjudged.concat_iff hown posted_loop hdispatched]
    exact ⟨fun hd => hd.tested, fun hsame => Dispatched.judgedBy_of_tested rfl hsame⟩
  rw [hturn]
  cases coroutine with
  | none => exact iff_of_true rfl (by simp only [OwnResult, hpoint])
  | some c =>
    simp only [OwnResult, hpoint, Option.map_some, Option.some.injEq, hdata]
    split_ifs at hentry with hfull
    · simp [hfull, hentry]
    · obtain rfl := Option.some.inj (hown.symm.trans hentry)
      exact iff_of_true rfl fun h => absurd h hfull

/-- Every other step leaves the turns alone. -/
theorem dispatched_loop (hpoint : ∀ head last' userData coroutine,
    s.point ≠ .seen head last' userData coroutine) (order : ℕ) (memory : ℕ → SqeData) :
    (s.loop order memory).dispatched = s.dispatched := by
  cases hp : s.point with
  | waiting => rw [State.loop_of_waiting hp]
  | range head last' =>
    by_cases hne : head = last'
    · subst hne
      rw [State.loop_of_range_eq hp]
    · rw [State.loop_of_range_ne hp hne]
  | stored head last' userData coroutine => rw [State.loop_of_stored hp]
  | seen head last' userData coroutine => exact absurd hp (hpoint _ _ _ _)

/-- **One step.** -/
theorem judged_step_iff {memory : ℕ → SqeData} {a : Action} {t : State}
    (h : s.Tracks ring.order base last) (hjudged : s.Judged)
    (hst : (system ring memory).step s a = some t) : t.Judged ↔ s.OwnResult ring.order a := by
  rcases step_cases hst with ⟨cqe, rfl, -, rfl⟩ | ⟨after, rfl, rfl⟩
  · refine iff_of_true (fun i d hd => ?_) (by simp [State.OwnResult])
    obtain ⟨own, hown, hd⟩ := hjudged i d hd
    obtain ⟨hi, -⟩ := List.getElem?_eq_some_iff.mp hown
    exact ⟨own, (List.getElem?_append_left hi).trans hown, hd⟩
  · cases hp : s.point with
    | seen head last' userData coroutine => exact h.judged_seen_iff hjudged hp after
    | waiting | range | stored =>
      refine iff_of_true ?_ (by simp [State.OwnResult, hp])
      rw [State.Judged, dispatched_loop (by simp [hp]), State.posted_loop]
      exact hjudged

end Judged

/-- **Every completion is judged by its own result exactly when no decision on a coroutine comes
while the ring is full**, unless the completion that took the slot has the same result — in every
interleaving of the loop and the kernel. -/
theorem forall_judged_iff (ring : Ring) (memory : ℕ → SqeData) (as : List Action) :
    (∀ s ∈ (system ring memory).visited as, s.Judged) ↔
      ∀ m ∈ (system ring memory).moves as, m.src.OwnResult ring.order m.act :=
  System.forall_visited_iff_moves
    (fun s : State => (∃ last, s.Tracks ring.order ring.khead.toNat last) ∧ s.Judged)
    ⟨⟨0, tracks_init ring memory⟩, fun _ _ h => absurd h nofun⟩ (fun _ h => h.2)
    (fun _ _ _ h hst ha => ⟨tracks_step h.1 hst, (judged_step_iff h.1.choose_spec h.2 hst).mpr ha⟩)
    (fun _ _ _ h hst ha hjudged => ha ((judged_step_iff h.1.choose_spec h.2 hst).mp hjudged)) as

/-- A ring of one with a completion that transferred data. -/
def fullRing : Ring where
  order := 0
  order_lt := by decide
  cqes := fun _ => ⟨1, 5, 0⟩
  khead := 0
  ktail := 1
  le_size := by decide

/-- The next completion, a timeout, is posted behind `cqe_seen`. -/
def timeoutBehindSeen : List Action :=
  [.loop fun _ => {}, .loop fun _ => {}, .loop fun _ => {}, .post ⟨2, -etime, 0⟩, .loop fun _ => {}]

/-- **The coroutine that got its data is destroyed.** -/
theorem not_judged_timeoutBehindSeen :
    ¬ ∀ s ∈ (system fullRing fun _ => ⟨some 9, 0, 0⟩).visited timeoutBehindSeen, s.Judged := by
  intro h
  obtain ⟨s, hrun, hdispatched, hposted⟩ : ∃ s,
      (system fullRing fun _ => ⟨some 9, 0, 0⟩).run timeoutBehindSeen = some s ∧
        s.dispatched[0]? = some ⟨1, some 9, 5, 0, some (-etime)⟩ ∧ s.posted[0]? = some ⟨1, 5, 0⟩ :=
    ⟨_, rfl, rfl, rfl⟩
  obtain ⟨cqe, hcqe, hd⟩ := h s (System.mem_visited_of_run _ hrun) 0 _ hdispatched
  obtain rfl := Option.some.inj (hposted.symm.trans hcqe)
  exact absurd (hd.destroyed_iff.mp rfl).2 (by decide)

end CompletionQueue

end YServer
