import YServer.Machinery.Delivery
import Mathlib.Data.List.TakeWhile

/-!
# Machinery/Framing — messages that say where they end

    stream   message 1 │ message 2 │ the beginning of message 3
    readAll    ↦ b₁        ↦ b₂      what is left, until more arrives

A `Framing` takes one message off the front of a list.  What it has taken stays taken however the
list goes on, so a message is not read before it is whole (`Writes.read_take`), and a writer that
puts its messages on the stream one by one is read exactly as far as they are out
(`readAll_delivered`).
-/

namespace Machinery

variable {ι α β : Type*}

/-- A reader of single messages. -/
structure Framing (α β : Type*) where
  /-- The first message and what stands behind it, if there is a whole one. -/
  read : List α → Option (β × List α)
  shorter : ∀ {s b r}, read s = some (b, r) → r.length < s.length
  append : ∀ {s b r}, read s = some (b, r) → ∀ t, read (s ++ t) = some (b, r ++ t)

namespace Framing

variable (F : Framing α β)

/-- The messages at the front, and what is left; as many as `fuel` allows. -/
def readLoop : ℕ → List α → List β × List α
  | 0, s => ([], s)
  | fuel + 1, s =>
    match F.read s with
    | none => ([], s)
    | some (b, r) => Prod.map (b :: ·) id (readLoop fuel r)

/-- **All the whole messages of a stream**, and what is left; there are no more of them than it is
long. -/
def readAll (s : List α) : List β × List α := F.readLoop s.length s

variable {F} {s t r : List α} {b : β}

theorem read_nil : F.read [] = none := by
  rcases h : F.read [] with _ | ⟨b, r⟩
  · rfl
  · exact absurd (F.shorter h) (Nat.not_lt_zero _)

theorem readLoop_of_read_eq_none (h : F.read s = none) (fuel : ℕ) :
    F.readLoop fuel s = ([], s) := by
  cases fuel with
  | zero => rfl
  | succ fuel => simp only [readLoop, h]

theorem readLoop_of_read (h : F.read s = some (b, r)) (fuel : ℕ) :
    F.readLoop (fuel + 1) s = Prod.map (b :: ·) id (F.readLoop fuel r) := by
  simp only [readLoop, h]

/-- Enough turns are enough — by induction on the turns; every message takes a letter. -/
theorem readLoop_of_le {fuel : ℕ} (h : s.length ≤ fuel) : F.readLoop fuel s = F.readAll s := by
  have key : ∀ (n m : ℕ) (s : List α), s.length ≤ n → s.length ≤ m →
      F.readLoop n s = F.readLoop m s := by
    intro n
    induction n with
    | zero =>
      intro m s hn hm
      obtain rfl := List.eq_nil_of_length_eq_zero (Nat.le_zero.mp hn)
      rw [readLoop_of_read_eq_none read_nil, readLoop_of_read_eq_none read_nil]
    | succ n ih =>
      intro m s hn hm
      rcases hread : F.read s with _ | ⟨b, r⟩
      · rw [readLoop_of_read_eq_none hread, readLoop_of_read_eq_none hread]
      · have hlt := F.shorter hread
        obtain ⟨m, rfl⟩ := Nat.exists_eq_add_one_of_ne_zero (show m ≠ 0 by omega)
        rw [readLoop_of_read hread, readLoop_of_read hread, ih m r (by omega) (by omega)]
  exact key _ _ s h le_rfl

theorem readAll_of_read_eq_none (h : F.read s = none) : F.readAll s = ([], s) :=
  readLoop_of_read_eq_none h _

/-- **One message is read after the other.** -/
theorem readAll_of_read (h : F.read s = some (b, r)) :
    F.readAll s = Prod.map (b :: ·) id (F.readAll r) := by
  have hlt := F.shorter h
  obtain ⟨n, hn⟩ := Nat.exists_eq_add_one_of_ne_zero (Nat.ne_zero_of_lt hlt)
  rw [readAll, hn, readLoop_of_read h, readLoop_of_le (by omega)]

/-! ## Streams of written messages -/

/-- A text that is one whole message. -/
def Writes (F : Framing α β) (s : List α) (b : β) : Prop := F.read s = some (b, [])

theorem Writes.read_append (h : F.Writes s b) (t : List α) : F.read (s ++ t) = some (b, t) :=
  F.append h t

/-- **A message is not read before it is whole.** -/
theorem Writes.read_take (h : F.Writes s b) {n : ℕ} (hn : n < s.length) :
    F.read (s.take n) = none := by
  rcases hread : F.read (s.take n) with _ | ⟨b', r⟩
  · rfl
  · have hwhole := F.append hread (s.drop n)
    rw [List.take_append_drop, h, Option.some_inj, Prod.mk.injEq] at hwhole
    have hlength := congrArg List.length hwhole.2
    rw [List.length_nil, List.length_append, List.length_drop] at hlength
    omega

section Written

variable {l : List ι} {message : ι → List α} {put : ι → ℕ} {value : ι → β}

/-- **Messages put on the stream one by one are read exactly as far as they are out** — by induction
on the messages; the first one that is not out has the end of the stream in it. -/
theorem readAll_delivered (h : ∀ i ∈ l, F.Writes (message i) (value i))
    (hone : OneByOne l message put) : (F.readAll (delivered l message put)).1
      = (l.takeWhile fun i => (message i).length ≤ put i).map value := by
  induction l with
  | nil =>
    rw [delivered, List.map_nil, List.flatten_nil, readAll_of_read_eq_none read_nil]
    rfl
  | cons i l ih =>
    obtain ⟨hi, hl⟩ := List.forall_mem_cons.mp h
    obtain ⟨hlater, hrest⟩ := List.pairwise_cons.mp hone
    rw [delivered_cons, List.takeWhile_cons]
    by_cases hout : (message i).length ≤ put i
    · rw [List.take_of_length_le hout, readAll_of_read (hi.read_append _),
        if_pos (decide_eq_true hout), List.map_cons, ← ih hl hrest]
      rfl
    · have hzero : ∀ j ∈ l, put j = 0 := fun j hj =>
        Nat.eq_zero_of_not_pos fun hpos => hout (hlater j hj hpos).ge
      rw [delivered_eq_nil hzero, List.append_nil,
        readAll_of_read_eq_none (hi.read_take (Nat.lt_of_not_le hout)),
        if_neg (by simpa using hout)]
      rfl

end Written

end Framing

end Machinery
