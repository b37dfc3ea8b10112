import YServer.BaseNet.BufferRing

/-!
# BaseNet/BufferOwnership — who owns a receive buffer

The kernel takes buffer ids at the head of the ring, one for each recv completion that carries data;
`handle_client` borrows the buffer of a completion it processes and gives it back later:

    published ──kernel selects──▸ held ──borrow_buffer──▸ held ──return_buffer──▸ published

An id should be in exactly one of the two places (`RingState.Exclusive`).  `add_buffer` publishes
the slot at the tail but writes the slot `bid` positions further, so a return keeps the ids apart
only when the slot it publishes happens to hold the right id already (`RingState.InPlace`), and over
a run that condition is exact (`exclusive_iff_returnsInPlace`).
-/

namespace YServer

open Machinery

/-! ## The ring and the completions that hold buffers -/

/-- A recv completion that carries a buffer and has not given it back. -/
structure HeldBuffer where
  conn : ℕ
  bid : ℕ
  size : ℕ
  borrowed : Bool
  deriving DecidableEq, Repr

/-- The buffers, the kernel's head, and the completions that hold one. -/
structure RingState where
  buffers : BufferRing
  head : ℕ
  held : List HeldBuffer

inductive RingAction
  /-- The kernel takes the entry at its head for `size` bytes received on `conn`. -/
  | select (conn size : ℕ)
  /-- `handle_client` calls `borrow_buffer` for the `i`-th completion that holds a buffer. -/
  | borrow (i : ℕ)
  /-- …and `return_buffer`, once it is done with it. -/
  | giveBack (i : ℕ)
  deriving DecidableEq, Repr

namespace RingState

variable (s : RingState)

abbrev size : ℕ := s.buffers.bufferList.length

abbrev tail : ℕ := s.buffers.ring.tail

/-- The slot of a position, as the kernel and `add_buffer` mask it. -/
def slot (p : ℕ) : ℕ := p &&& ioUringBufRingMask s.size

/-- The id a slot holds. -/
def bidOf (i : ℕ) : ℕ := (s.buffers.ring.bufs i).bid

/-- The ids the kernel can still select, in the order it will. -/
def published : List ℕ := window s.slot s.bidOf s.head (s.tail - s.head)

/-- The ids of the completions that hold a buffer. -/
def heldIds : List ℕ := s.held.map HeldBuffer.bid

def step : RingAction → Option RingState
  | .select conn size =>
    if s.head < s.tail then
      some { s with
        head := s.head + 1
        held := s.held ++ [⟨conn, s.bidOf (s.slot s.head), size, false⟩] }
    else none
  | .borrow i =>
    match s.held[i]? with
    | some h =>
      if h.borrowed then none
      else some { s with
        buffers := (s.buffers.borrowBuffer h.bid h.size).1
        held := s.held.set i { h with borrowed := true } }
    | none => none
  | .giveBack i =>
    match s.held[i]? with
    | some h =>
      if h.borrowed then
        some { s with buffers := s.buffers.returnBuffer h.bid, held := s.held.eraseIdx i }
      else none
    | none => none

/-- **Every id is in one place**: published once, or held by one completion. -/
def Exclusive : Prop :=
  ∀ bid < s.size, (s.published.count bid = 1 ∧ s.heldIds.count bid = 0) ∨
    (s.published.count bid = 0 ∧ s.heldIds.count bid = 1)

/-- So an id is never both selectable and held, and never in neither place. -/
theorem Exclusive.published_iff_not_held {s : RingState} (hs : s.Exclusive) {bid : ℕ}
    (hbid : bid < s.size) : bid ∈ s.published ↔ bid ∉ s.heldIds := by
  rw [← List.count_pos_iff, ← List.count_eq_zero]
  rcases hs bid hbid with ⟨h₁, h₂⟩ | ⟨h₁, h₂⟩ <;> omega

/-- The slot a return of `bid` writes is one the kernel can still select. -/
def WritesWindow (bid : ℕ) : Prop :=
  ∃ p < s.tail, s.head ≤ p ∧ s.slot p = s.slot (s.tail + bid)

instance (bid : ℕ) : Decidable (s.WritesWindow bid) :=
  inferInstanceAs (Decidable (∃ p < s.tail, s.head ≤ p ∧ s.slot p = s.slot (s.tail + bid)))

/-- **The slot a return of `bid` publishes holds the right id**: the slot is the one written, or it
already holds the id the write displaces from the window, or — where the write lands outside the
window — `bid` itself. -/
def InPlace (bid : ℕ) : Prop :=
  bid = 0 ∨ s.bidOf (s.slot s.tail)
    = if s.WritesWindow bid then s.bidOf (s.slot (s.tail + bid)) else bid

end RingState

/-- The condition on one action: what it gives back is returned in place. -/
def ReturnsInPlace (s : RingState) : RingAction → Prop
  | .giveBack i => ∀ h ∈ s.held[i]?, s.InPlace h.bid
  | _ => True

/-- A worker's buffers, from `register_buffer_ring` on, with `2 ^ k` buffers of `bufferSize` bytes
over whatever `memory` the allocator returned. -/
def ringSystem (k bufferSize : ℕ) (memory : IoUringBufRing) : System RingState RingAction where
  init := ⟨registerBufferRing memory (2 ^ k) bufferSize, 0, []⟩
  step := RingState.step

/-! ## The invariant -/

/-- Published and held ids together are each id once. -/
structure RingState.Owned (k : ℕ) (s : RingState) : Prop where
  size_eq : s.size = 2 ^ k
  head_le : s.head ≤ s.tail
  perm : (s.published ++ s.heldIds).Perm (List.range (2 ^ k))

namespace RingState

variable {k : ℕ} {s t : RingState}

theorem Owned.distinguishes (hs : s.Owned k) : Distinguishes s.slot (2 ^ k) := by
  have h := distinguishes_and_mask k
  rw [← hs.size_eq] at h ⊢
  exact h

theorem Owned.count_eq (hs : s.Owned k) (b : ℕ) :
    s.published.count b + s.heldIds.count b = if b < 2 ^ k then 1 else 0 := by
  rw [← List.count_append, hs.perm.count_eq]
  by_cases hb : b < 2 ^ k
  · rw [if_pos hb, List.nodup_range.count, if_pos (List.mem_range.mpr hb)]
  · rw [if_neg hb, List.count_eq_zero.mpr fun h => hb (List.mem_range.mp h)]

theorem Owned.exclusive (hs : s.Owned k) : s.Exclusive := by
  intro b hb
  have := hs.count_eq b
  rw [if_pos (hs.size_eq ▸ hb)] at this
  omega

theorem Owned.length_add (hs : s.Owned k) : (s.tail - s.head) + s.held.length = 2 ^ k := by
  have h := hs.perm.length_eq
  rwa [List.length_append, published, length_window, heldIds, List.length_map,
    List.length_range] at h

/-! ## The three actions -/

/-- The window moves on by the entry the kernel took. -/
theorem owned_select {conn size : ℕ} (hs : s.Owned k)
    (hstep : s.step (.select conn size) = some t) : t.Owned k := by
  simp only [step, Option.ite_none_right_eq_some, Option.some.injEq] at hstep
  obtain ⟨hlt, rfl⟩ := hstep
  refine ⟨hs.size_eq, hlt, ?_⟩
  have hpub : s.published = s.bidOf (s.slot s.head)
      :: window s.slot s.bidOf (s.head + 1) (s.tail - (s.head + 1)) := by
    rw [published, ← window_succ]
    exact congrArg (window s.slot s.bidOf s.head) (by omega)
  have hheld : ∀ c : HeldBuffer, (s.held ++ [c]).map HeldBuffer.bid = s.heldIds ++ [c.bid] :=
    fun c => List.map_append
  refine List.Perm.trans ?_ hs.perm
  rw [hpub]
  change (window s.slot s.bidOf (s.head + 1) (s.tail - (s.head + 1))
    ++ (s.held ++ [_]).map HeldBuffer.bid).Perm _
  rw [hheld, ← List.append_assoc]
  exact List.perm_append_comm

/-- Borrowing moves no id. -/
theorem owned_borrow {i : ℕ} (hs : s.Owned k) (hstep : s.step (.borrow i) = some t) :
    t.Owned k := by
  simp only [step] at hstep
  split at hstep
  case h_2 => cases hstep
  case h_1 h hi =>
    obtain ⟨-, hsome⟩ := Option.ite_none_left_eq_some.mp hstep
    obtain rfl := Option.some.inj hsome
    have hheld : (s.held.set i { h with borrowed := true }).map HeldBuffer.bid = s.heldIds := by
      obtain ⟨hlt, hget⟩ := List.getElem?_eq_some_iff.mp hi
      rw [List.map_set, heldIds]
      refine List.ext_getElem (by simp) fun j hj _ => ?_
      rw [List.getElem_set, List.getElem_map]
      split
      case isTrue hij => subst hij; rw [hget]
      case isFalse => rfl
    refine ⟨hs.size_eq, hs.head_le, ?_⟩
    change (s.published ++ (s.held.set i _).map HeldBuffer.bid).Perm _
    rw [hheld]
    exact hs.perm

/-- What a return does: the completion leaves, and the buffer ring is that of `return_buffer`. -/
theorem giveBack_cases {i : ℕ} (hstep : s.step (.giveBack i) = some t) :
    ∃ h, s.held[i]? = some h ∧
      t = { s with buffers := s.buffers.returnBuffer h.bid, held := s.held.eraseIdx i } := by
  simp only [step] at hstep
  split at hstep
  case h_2 => cases hstep
  case h_1 h hi =>
    obtain ⟨-, hsome⟩ := Option.ite_none_right_eq_some.mp hstep
    exact ⟨h, hi, (Option.some.inj hsome).symm⟩

/-! ## What a return publishes

Three cases, by the slot the return writes: the slot it publishes, a slot outside the window, or a
slot inside. -/

/-- The state once `return_buffer bid` is done, the completion that held the buffer still listed. -/
def afterReturn (s : RingState) (bid : ℕ) : RingState :=
  { s with buffers := s.buffers.returnBuffer bid }

variable {bid : ℕ}

theorem bidOf_afterReturn : (s.afterReturn bid).bidOf
    = Function.update s.bidOf (s.slot (s.tail + bid)) bid :=
  Function.comp_update IoUringBuf.bid s.buffers.ring.bufs _ _

theorem published_afterReturn (hle : s.head ≤ s.tail) : (s.afterReturn bid).published
    = window s.slot (Function.update s.bidOf (s.slot (s.tail + bid)) bid) s.head (s.tail - s.head)
      ++ [Function.update s.bidOf (s.slot (s.tail + bid)) bid (s.slot s.tail)] := by
  have hlen : s.tail + 1 - s.head = s.tail - s.head + 1 := by omega
  have hend : s.head + (s.tail - s.head) = s.tail := by omega
  rw [published, bidOf_afterReturn]
  change window s.slot _ s.head (s.tail + 1 - s.head) = _
  rw [hlen, window_concat, hend]

theorem slot_add_ne_tail (hs : s.Owned k) (hbid : bid ≠ 0) (hlt : bid < 2 ^ k) :
    s.slot s.tail ≠ s.slot (s.tail + bid) := hs.distinguishes (by omega) (by omega)

/-- **Id `0` is written to the slot that is published.** -/
theorem published_afterReturn_zero (hs : s.Owned k) (hroom : s.tail - s.head < 2 ^ k) :
    (s.afterReturn 0).published = s.published ++ [0] := by
  rw [published_afterReturn hs.head_le, Nat.add_zero, Function.update_self, window_update_of_ne]
  · rfl
  · exact fun p hl hr => hs.distinguishes (by omega) (by omega)

/-- **A write outside the window publishes what the tail's slot held.** -/
theorem published_afterReturn_outside (hs : s.Owned k) (hbid : bid ≠ 0) (hlt : bid < 2 ^ k)
    (hout : ¬ s.WritesWindow bid) :
    (s.afterReturn bid).published = s.published ++ [s.bidOf (s.slot s.tail)] := by
  rw [published_afterReturn hs.head_le, Function.update_of_ne (slot_add_ne_tail hs hbid hlt),
    window_update_of_ne]
  · rfl
  · exact fun p hl hr heq => hout ⟨p, by omega, hl, heq⟩

/-- **A write inside the window publishes that too, and displaces an id that was published.** -/
theorem published_afterReturn_inside (hs : s.Owned k) (hroom : s.tail - s.head < 2 ^ k)
    (hbid : bid ≠ 0) (hlt : bid < 2 ^ k) (hin : s.WritesWindow bid) :
    (s.bidOf (s.slot (s.tail + bid)) :: (s.afterReturn bid).published).Perm
      (bid :: (s.published ++ [s.bidOf (s.slot s.tail)])) := by
  obtain ⟨p, hr, hl, hp⟩ := hin
  rw [published_afterReturn hs.head_le, Function.update_of_ne (slot_add_ne_tail hs hbid hlt), ← hp]
  exact (window_update_perm hs.distinguishes hroom.le hl (by omega) bid).append_right _

theorem displaced_mem (hin : s.WritesWindow bid) :
    s.bidOf (s.slot (s.tail + bid)) ∈ s.published := by
  obtain ⟨p, hr, hl, hp⟩ := hin
  rw [← hp]
  exact List.mem_map.mpr ⟨p, List.mem_range'_1.mpr ⟨hl, by omega⟩, rfl⟩

/-! ## One return -/

/-- The completion that gives its buffer back held an id of the ring, and held it alone. -/
theorem Owned.held_giveBack {i : ℕ} {h : HeldBuffer} (hs : s.Owned k) (hi : s.held[i]? = some h) :
    h.bid < 2 ^ k ∧ s.tail - s.head < 2 ^ k ∧ s.published.count h.bid = 0 ∧
      (h.bid :: (s.held.eraseIdx i).map HeldBuffer.bid).Perm s.heldIds := by
  obtain ⟨hlt, rfl⟩ := List.getElem?_eq_some_iff.mp hi
  have hmem : s.held[i].bid ∈ s.heldIds := List.mem_map_of_mem (List.getElem_mem hlt)
  have hid : s.held[i].bid < 2 ^ k :=
    List.mem_range.mp (hs.perm.subset (List.mem_append_right _ hmem))
  have hcount := hs.count_eq s.held[i].bid
  rw [if_pos hid] at hcount
  have hone : 0 < s.heldIds.count s.held[i].bid := List.count_pos_iff.mpr hmem
  have hroom := hs.length_add
  refine ⟨hid, by omega, by omega, ?_⟩
  exact (List.getElem_cons_eraseIdx_perm hlt).map HeldBuffer.bid

/-- **A return in place keeps the ids apart.** -/
theorem owned_giveBack {i : ℕ} (hs : s.Owned k) (hstep : s.step (.giveBack i) = some t)
    (hin : ReturnsInPlace s (.giveBack i)) : t.Owned k := by
  obtain ⟨h, hi, rfl⟩ := giveBack_cases hstep
  obtain ⟨hlt, hroom, -, herase⟩ := hs.held_giveBack hi
  refine ⟨hs.size_eq, hs.head_le.trans (Nat.le_succ _), ?_⟩
  -- the new window is the old one and the id given back, in some order
  have hpub : (s.afterReturn h.bid).published.Perm (h.bid :: s.published) := by
    have hsnoc : ∀ b, (s.published ++ [b]).Perm (b :: s.published) :=
      fun b => List.perm_append_singleton b _
    rcases Nat.eq_zero_or_pos h.bid with hzero | hpos
    · rw [hzero, published_afterReturn_zero hs hroom]
      exact hsnoc 0
    have hplace := (hin h hi).resolve_left hpos.ne'
    by_cases hw : s.WritesWindow h.bid
    · rw [if_pos hw] at hplace
      have hperm := published_afterReturn_inside hs hroom hpos.ne' hlt hw
      rw [hplace] at hperm
      exact (hperm.trans (((hsnoc _).cons _).trans (List.Perm.swap _ _ _))).cons_inv
    · rw [if_neg hw] at hplace
      rw [published_afterReturn_outside hs hpos.ne' hlt hw, hplace]
      exact hsnoc _
  exact ((hpub.append_right _).trans List.perm_middle.symm).trans
    ((herase.append_left _).trans hs.perm)

theorem Owned.count_heldIds_erase {i : ℕ} {h : HeldBuffer} (hs : s.Owned k)
    (hi : s.held[i]? = some h) (b : ℕ) :
    ((s.held.eraseIdx i).map HeldBuffer.bid).count b
      = s.heldIds.count b - (if h.bid = b then 1 else 0) := by
  obtain ⟨-, -, -, herase⟩ := hs.held_giveBack hi
  have hcount := herase.count_eq b
  rw [List.count_cons] at hcount
  simp only [beq_iff_eq] at hcount
  omega

/-- An id that is neither published nor held is lost. -/
theorem not_exclusive_of_lost {b : ℕ} (hb : b < s.size) (hpub : s.published.count b = 0)
    (hheld : s.heldIds.count b = 0) : ¬ s.Exclusive := fun hex => by
  rcases hex b hb with ⟨h, -⟩ | ⟨-, h⟩
  · exact absurd (hpub.symm.trans h) zero_ne_one
  · exact absurd (hheld.symm.trans h) zero_ne_one

/-- Where the write lands outside the window, the id given back is not published. -/
theorem count_published_outside (hs : s.Owned k) (hbid : bid ≠ 0) (hlt : bid < 2 ^ k)
    (hout : ¬ s.WritesWindow bid) (hfree : s.published.count bid = 0)
    (hplace : s.bidOf (s.slot s.tail) ≠ bid) : (s.afterReturn bid).published.count bid = 0 := by
  rw [published_afterReturn_outside hs hbid hlt hout, List.count_append, hfree,
    List.count_singleton]
  simpa using hplace

/-- Where it lands inside, the displaced id no longer is. -/
theorem count_published_inside (hs : s.Owned k) (hroom : s.tail - s.head < 2 ^ k) (hbid : bid ≠ 0)
    (hlt : bid < 2 ^ k) (hin : s.WritesWindow bid)
    (hone : s.published.count (s.bidOf (s.slot (s.tail + bid))) = 1)
    (hne : bid ≠ s.bidOf (s.slot (s.tail + bid)))
    (hplace : s.bidOf (s.slot s.tail) ≠ s.bidOf (s.slot (s.tail + bid))) :
    (s.afterReturn bid).published.count (s.bidOf (s.slot (s.tail + bid))) = 0 := by
  have hpub := (published_afterReturn_inside hs hroom hbid hlt hin).count_eq
    (s.bidOf (s.slot (s.tail + bid)))
  rw [List.count_cons_self, List.count_cons_of_ne hne, List.count_append, hone,
    List.count_singleton, if_neg (by simpa using hplace)] at hpub
  omega

/-- **A return out of place loses an id** — the one given back where the write lands outside the
window, the displaced one where it lands inside. -/
theorem not_exclusive_giveBack {i : ℕ} (hs : s.Owned k) (hstep : s.step (.giveBack i) = some t)
    (hout : ¬ ReturnsInPlace s (.giveBack i)) : ¬ t.Exclusive := by
  obtain ⟨h, hi, rfl⟩ := giveBack_cases hstep
  obtain ⟨hlt, hroom, hfree, -⟩ := hs.held_giveBack hi
  have hmiss : ¬ s.InPlace h.bid := fun hp => hout fun h' hi' => by
    obtain rfl : h = h' := Option.some.inj (hi.symm.trans hi')
    exact hp
  obtain ⟨hpos, hplace⟩ := not_or.mp hmiss
  by_cases hw : s.WritesWindow h.bid
  · rw [if_pos hw] at hplace
    -- the displaced id was published, so no completion holds it
    have hmem := displaced_mem hw
    have hdis : s.bidOf (s.slot (s.tail + h.bid)) < 2 ^ k :=
      List.mem_range.mp (hs.perm.subset (List.mem_append_left _ hmem))
    have hcount := hs.count_eq (s.bidOf (s.slot (s.tail + h.bid)))
    rw [if_pos hdis] at hcount
    have hpub : 0 < s.published.count (s.bidOf (s.slot (s.tail + h.bid))) :=
      List.count_pos_iff.mpr hmem
    have hne : h.bid ≠ s.bidOf (s.slot (s.tail + h.bid)) := fun heq => by
      rw [← heq, hfree] at hpub
      exact absurd hpub (lt_irrefl 0)
    refine not_exclusive_of_lost (hs.size_eq.symm ▸ hdis)
      (count_published_inside hs hroom hpos hlt hw (by omega) hne hplace) ?_
    exact (hs.count_heldIds_erase hi _).trans (by omega)
  · rw [if_neg hw] at hplace
    have hcount := hs.count_eq h.bid
    rw [if_pos hlt, hfree] at hcount
    refine not_exclusive_of_lost (hs.size_eq.symm ▸ hlt)
      (count_published_outside hs hpos hlt hw hfree hplace) ?_
    refine (hs.count_heldIds_erase hi _).trans ?_
    rw [if_pos rfl]
    omega

end RingState

/-! ## Whole runs -/

section Runs

variable (k bufferSize : ℕ) (memory : IoUringBufRing)

/-- **After registration every id is published, in order.** -/
theorem owned_init : (ringSystem k bufferSize memory).init.Owned k := by
  have hbid : ∀ p ∈ List.range (2 ^ k), ((registerBufferRing memory (2 ^ k) bufferSize).ring.bufs
      (p &&& ioUringBufRingMask
        (registerBufferRing memory (2 ^ k) bufferSize).bufferList.length)).bid = id p := by
    intro p hp
    have hlt := List.mem_range.mp hp
    rw [length_bufferList_registerBufferRing, ioUringBufRingMask, Nat.and_two_pow_sub_one_eq_mod,
      Nat.mod_eq_of_lt hlt, bufs_registerBufferRing memory k bufferSize hlt]
    rfl
  refine ⟨length_bufferList_registerBufferRing _ _ _, Nat.zero_le _, List.Perm.of_eq ?_⟩
  change (List.range' 0 ((registerBufferRing memory (2 ^ k) bufferSize).ring.tail - 0)).map _ ++ []
    = List.range (2 ^ k)
  rw [tail_registerBufferRing, List.append_nil, Nat.sub_zero, ← List.range_eq_range']
  exact (List.map_congr_left hbid).trans (List.map_id _)

/-- **What one move keeps**: the kernel's selections and the borrows keep the ids apart, and so do
the returns in place. -/
theorem owned_step (s : RingState) (a : RingAction) (t : RingState) (hs : s.Owned k)
    (hstep : s.step a = some t) (ha : ReturnsInPlace s a) : t.Owned k := by
  cases a with
  | select conn size => exact RingState.owned_select hs hstep
  | borrow i => exact RingState.owned_borrow hs hstep
  | giveBack i => exact RingState.owned_giveBack hs hstep ha

/-- **Buffers are owned exclusively exactly as long as every return is in place** — over every
interleaving of selections, borrows and returns, for every power-of-two ring. -/
theorem exclusive_iff_returnsInPlace (as : List RingAction) :
    (∀ s ∈ (ringSystem k bufferSize memory).visited as, s.Exclusive)
      ↔ ∀ m ∈ (ringSystem k bufferSize memory).moves as, ReturnsInPlace m.src m.act := by
  refine System.forall_visited_iff_moves (RingState.Owned k) (owned_init k bufferSize memory)
    (fun s => ?_) (owned_step k) (fun s a t hs hstep ha => ?_) as
  · exact RingState.Owned.exclusive
  · cases a with
    | giveBack i => exact RingState.not_exclusive_giveBack hs hstep ha
    | select conn size => exact absurd trivial ha
    | borrow i => exact absurd trivial ha

end Runs

/-! ## The ring the server registers

The first two buffers are received into, one after the other, and each is given back at once.  Id
`0` comes back in place; id `1` is written over id `2`, and slot `1`, which still holds it, is
published again. -/

/-- One recv completion taken, borrowed and given back. -/
def roundTrip (conn size : ℕ) : List RingAction := [.select conn size, .borrow 0, .giveBack 0]

/-- The buffers after a round trip of `bid`. -/
def BufferRing.roundTrip (b : BufferRing) (bid size : ℕ) : BufferRing :=
  (b.borrowBuffer bid size).1.returnBuffer bid

/-- A round trip with no other buffer held, while the kernel finds `bid` at its head. -/
theorem runFrom_roundTrip {S : System RingState RingAction} (hS : S.step = RingState.step)
    (bid : ℕ) {b : BufferRing} {head conn size : ℕ} (hlt : head < b.ring.tail)
    (hbid : RingState.bidOf ⟨b, head, []⟩ (RingState.slot ⟨b, head, []⟩ head) = bid) :
    S.runFrom ⟨b, head, []⟩ (roundTrip conn size) = some ⟨b.roundTrip bid size, head + 1, []⟩ := by
  simp only [roundTrip, System.runFrom_cons, System.runFrom_nil, hS]
  simp only [RingState.step, hlt, if_true, hbid, Option.bind_some, List.nil_append,
    List.getElem?_cons_zero, Bool.false_eq_true, if_false, List.set_cons_zero,
    List.eraseIdx_cons_zero, BufferRing.roundTrip]

/-- A round trip writes the id `bid` positions past the tail, and nothing else. -/
theorem bidOf_roundTrip (b : BufferRing) (bid size head : ℕ) :
    RingState.bidOf ⟨b.roundTrip bid size, head, []⟩
      = Function.update (RingState.bidOf ⟨b, head, []⟩)
        (RingState.slot ⟨b, head, []⟩ (b.ring.tail + bid)) bid :=
  Function.comp_update IoUringBuf.bid b.ring.bufs _ _

section SecondReturn

variable {b : BufferRing} (hlen : b.bufferList.length = bufferRingSize)
  (htail : b.ring.tail = bufferRingSize)
  (hbufs : ∀ i < bufferRingSize, (b.ring.bufs i).bid = i)

theorem slot_eq_mod {c : BufferRing} (hc : c.bufferList.length = bufferRingSize) (head p : ℕ) :
    RingState.slot ⟨c, head, []⟩ p = p % bufferRingSize := by
  rw [RingState.slot, RingState.size, hc, ioUringBufRingMask]
  exact Nat.and_two_pow_sub_one_eq_mod p 12

include hlen htail

/-- Id `0` is written to slot `0`… -/
theorem bidOf_firstReturn (head : ℕ) : RingState.bidOf ⟨b.roundTrip 0 1, head, []⟩
    = Function.update (RingState.bidOf ⟨b, head, []⟩) 0 0 := by
  rw [bidOf_roundTrip, slot_eq_mod hlen, htail, Nat.add_zero, Nat.mod_self]

/-- …and id `1` to slot `2`. -/
theorem bidOf_secondReturn (head : ℕ) :
    RingState.bidOf ⟨(b.roundTrip 0 1).roundTrip 1 1, head, []⟩
      = Function.update (RingState.bidOf ⟨b.roundTrip 0 1, head, []⟩) 2 1 := by
  have htail' : (b.roundTrip 0 1).ring.tail = bufferRingSize + 1 := congrArg (· + 1) htail
  have hlen' : (b.roundTrip 0 1).bufferList.length = bufferRingSize := hlen
  rw [bidOf_roundTrip, slot_eq_mod hlen', htail']
  rfl

include hbufs

theorem runFrom_secondReturn {S : System RingState RingAction} (hS : S.step = RingState.step) :
    S.runFrom ⟨b, 0, []⟩ (roundTrip 7 1 ++ roundTrip 7 1)
      = some ⟨(b.roundTrip 0 1).roundTrip 1 1, 2, []⟩ := by
  have hlen' : (b.roundTrip 0 1).bufferList.length = bufferRingSize := hlen
  rw [System.runFrom_append, runFrom_roundTrip hS 0, Option.bind_some, runFrom_roundTrip hS 1]
  · change 1 < b.ring.tail + 1
    rw [htail]
    decide
  · rw [slot_eq_mod hlen', bidOf_firstReturn hlen htail]
    exact hbufs 1 (by decide)
  · rw [htail]
    decide
  · rw [slot_eq_mod hlen]
    exact hbufs 0 (by decide)

/-- **After the second return no slot holds id `2`**, which nobody holds either. -/
theorem not_exclusive_of_secondReturn :
    ¬ RingState.Exclusive ⟨(b.roundTrip 0 1).roundTrip 1 1, 2, []⟩ := by
  have hlen' : ((b.roundTrip 0 1).roundTrip 1 1).bufferList.length = bufferRingSize := hlen
  have hgone : ∀ i < bufferRingSize,
      RingState.bidOf ⟨(b.roundTrip 0 1).roundTrip 1 1, 2, []⟩ i ≠ 2 := by
    intro i hi
    have hbid : RingState.bidOf ⟨b, 2, []⟩ i = i := hbufs i hi
    rw [bidOf_secondReturn hlen htail, bidOf_firstReturn hlen htail, Function.update_apply,
      Function.update_apply, hbid]
    split_ifs <;> omega
  have hnone : (RingState.published ⟨(b.roundTrip 0 1).roundTrip 1 1, 2, []⟩).count 2 = 0 := by
    refine List.count_eq_zero.mpr fun hmem => ?_
    obtain ⟨p, -, hp⟩ := List.mem_map.mp hmem
    refine hgone _ ?_ hp
    rw [slot_eq_mod hlen']
    exact Nat.mod_lt p (by decide)
  intro hex
  rcases hex 2 (by rw [RingState.size, hlen']; decide) with ⟨h, -⟩ | ⟨-, h⟩
  · rw [hnone] at h
    exact absurd h (by decide)
  · rw [RingState.heldIds, List.map_nil, List.count_nil] at h
    exact absurd h (by decide)

end SecondReturn

/-- **The ring the server registers loses an id with the second buffer it gets back.** -/
theorem not_exclusive_secondReturn :
    ¬ ∀ s ∈ (ringSystem 12 bufferSize ⟨fun _ => ⟨0, 0, 0⟩, 0⟩).visited
      (roundTrip 7 1 ++ roundTrip 7 1), s.Exclusive := by
  let memory : IoUringBufRing := ⟨fun _ => ⟨0, 0, 0⟩, 0⟩
  have hlen : (registerBufferRing memory (2 ^ 12) bufferSize).bufferList.length = bufferRingSize :=
    length_bufferList_registerBufferRing _ _ _
  have htail : (registerBufferRing memory (2 ^ 12) bufferSize).ring.tail = bufferRingSize :=
    tail_registerBufferRing _ _ _
  have hbufs : ∀ i < bufferRingSize,
      ((registerBufferRing memory (2 ^ 12) bufferSize).ring.bufs i).bid = i := fun i hi =>
    congrArg IoUringBuf.bid (bufs_registerBufferRing memory 12 bufferSize hi)
  intro hex
  refine not_exclusive_of_secondReturn hlen htail hbufs (hex _ (System.mem_visited_of_run _ ?_))
  exact runFrom_secondReturn hlen htail hbufs rfl

end YServer
