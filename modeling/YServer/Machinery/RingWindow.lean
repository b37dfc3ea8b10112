import Mathlib.Data.List.Perm.Basic
import Mathlib.Data.Nat.ModEq
import Mathlib.Logic.Function.Basic

/-!
# Machinery/RingWindow — what a ring shows between its two counters

A ring keeps its entries in slots and counts positions without ever wrapping the counters; `slot`
says which slot a position falls on.  The `window` of `len` positions from `head` is what a consumer
will read.  While no two positions fewer than `n` apart share a slot (`Distinguishes`), a write
outside the window leaves it alone and a write inside replaces exactly one entry.
-/

namespace Machinery

variable {α ι : Type*}

/-! ## Slots -/

/-- Positions fewer than `n` apart fall on different slots. -/
def Distinguishes (slot : ℕ → ι) (n : ℕ) : Prop :=
  ∀ ⦃p q : ℕ⦄, p < q → q < p + n → slot p ≠ slot q

/-- The remainder distinguishes as many positions as the ring has slots. -/
theorem distinguishes_mod (n : ℕ) : Distinguishes (fun p => p % n) n := by
  intro p q hpq hqn h
  have hdvd : n ∣ q - p := (Nat.modEq_iff_dvd' hpq.le).mp h
  have := Nat.le_of_dvd (by omega) hdvd
  omega

/-- …and so does the mask of a power of two. -/
theorem distinguishes_and_mask (k : ℕ) : Distinguishes (fun p => p &&& (2 ^ k - 1)) (2 ^ k) := by
  simpa only [Nat.and_two_pow_sub_one_eq_mod] using distinguishes_mod (2 ^ k)

/-- The mask of a power of two does not see a counter of `w ≥ k` bits wrap. -/
theorem mod_add_and_mask {k w : ℕ} (h : k ≤ w) (p q : ℕ) :
    (p % 2 ^ w + q) &&& (2 ^ k - 1) = (p + q) &&& (2 ^ k - 1) := by
  rw [Nat.and_two_pow_sub_one_eq_mod, Nat.and_two_pow_sub_one_eq_mod, Nat.add_mod,
    Nat.mod_mod_of_dvd _ (Nat.pow_dvd_pow 2 h), ← Nat.add_mod]

/-! ## Windows -/

/-- The entries at the `len` positions from `head` on. -/
def window (slot : ℕ → ι) (entry : ι → α) (head len : ℕ) : List α :=
  (List.range' head len).map fun p => entry (slot p)

section Window

variable (slot : ℕ → ι) (entry : ι → α) (head len : ℕ)

@[simp] theorem window_zero : window slot entry head 0 = [] := rfl

@[simp] theorem length_window : (window slot entry head len).length = len := by simp [window]

/-- The consumer takes from the left. -/
theorem window_succ : window slot entry head (len + 1)
    = entry (slot head) :: window slot entry (head + 1) len := by
  rw [window, List.range'_succ, List.map_cons, window]

/-- The producer adds on the right. -/
theorem window_concat : window slot entry head (len + 1)
    = window slot entry head len ++ [entry (slot (head + len))] := by
  rw [window, List.range'_concat, List.map_append, window, Nat.one_mul]
  rfl

theorem window_add (m : ℕ) : window slot entry head (len + m)
    = window slot entry head len ++ window slot entry (head + len) m := by
  induction m with
  | zero => simp
  | succ m ih =>
    rw [← Nat.add_assoc, window_concat, ih, window_concat, List.append_assoc, Nat.add_assoc]

variable {slot entry head len}

theorem window_congr {entry' : ι → α}
    (h : ∀ p, head ≤ p → p < head + len → entry (slot p) = entry' (slot p)) :
    window slot entry head len = window slot entry' head len :=
  List.map_congr_left fun p hp => by
    obtain ⟨hl, hr⟩ := List.mem_range'_1.mp hp
    exact h p hl hr

variable [DecidableEq ι]

/-- **A write outside the window leaves it alone.** -/
theorem window_update_of_ne {i : ι} (v : α)
    (h : ∀ p, head ≤ p → p < head + len → slot p ≠ i) :
    window slot (Function.update entry i v) head len = window slot entry head len :=
  window_congr fun p hl hr => Function.update_of_ne (h p hl hr) v entry

/-- **A write inside the window replaces the one entry at its position.** -/
theorem window_update_perm {n p : ℕ} (hs : Distinguishes slot n) (hn : len ≤ n) (hl : head ≤ p)
    (hr : p < head + len) (v : α) :
    (entry (slot p) :: window slot (Function.update entry (slot p) v) head len).Perm
      (v :: window slot entry head len) := by
  obtain ⟨a, rfl⟩ := Nat.exists_eq_add_of_le hl
  obtain ⟨b, rfl⟩ := Nat.exists_eq_add_of_lt (Nat.lt_of_add_lt_add_left hr)
  have hbefore : ∀ q, head ≤ q → q < head + a → slot q ≠ slot (head + a) :=
    fun q _ hq => hs hq (by omega)
  have hafter : ∀ q, head + a + 1 ≤ q → q < head + a + 1 + b → slot q ≠ slot (head + a) :=
    fun q hq hq' => (hs hq (by omega)).symm
  have hsplit : ∀ e : ι → α, window slot e head (a + b + 1)
      = window slot e head a ++ e (slot (head + a)) :: window slot e (head + a + 1) b := by
    intro e
    rw [Nat.add_assoc, window_add, window_succ]
  rw [hsplit, hsplit, window_update_of_ne v hbefore, window_update_of_ne v hafter,
    Function.update_self]
  exact (List.perm_middle.cons _).trans
    ((List.Perm.swap _ _ _).trans (List.perm_middle.symm.cons _))

end Window

/-! ## The latest entries

A producer that writes one entry behind the other keeps the last `n` of them in the ring, whether
the consumer has read them or not. -/

/-- The ring holds the last `n` of the entries written from position `base` on. -/
def HoldsLatest (slot : ℕ → ι) (entry : ι → α) (base n : ℕ) (written : List α) : Prop :=
  ∀ i < written.length, written.length ≤ i + n → written[i]? = some (entry (slot (base + i)))

/-- **One more entry.** -/
theorem HoldsLatest.concat [DecidableEq ι] {slot : ℕ → ι} {entry : ι → α} {base n : ℕ}
    {written : List α} (hs : Distinguishes slot n) (h : HoldsLatest slot entry base n written)
    (v : α) : HoldsLatest slot (Function.update entry (slot (base + written.length)) v) base n
      (written ++ [v]) := by
  intro i hi hn
  rw [List.length_append, List.length_singleton] at hi hn
  rcases Nat.lt_succ_iff_lt_or_eq.mp hi with hlt | rfl
  · rw [List.getElem?_append_left hlt, h i hlt (by omega), Function.update_of_ne]
    exact hs (by omega) (by omega)
  · rw [List.getElem?_concat_length, Function.update_self]

theorem holdsLatest_window (slot : ℕ → ι) (entry : ι → α) (base n len : ℕ) :
    HoldsLatest slot entry base n (window slot entry base len) := by
  intro i hi _
  rw [length_window] at hi
  rw [window, List.getElem?_map, List.getElem?_range' hi, Nat.one_mul]
  rfl

/-! ## Counters of 32 bits -/

/-- The difference of two counters is their distance. -/
theorem toNat_ofNat_add_sub {p n : ℕ} (h : n < 2 ^ 32) :
    (UInt32.ofNat (p + n) - UInt32.ofNat p).toNat = n := by
  rw [UInt32.ofNat_add, UInt32.add_comm, UInt32.add_sub_cancel, UInt32.toNat_ofNat_of_lt' h]

/-- Counters closer than their range are equal only at the same position. -/
theorem ofNat_eq_ofNat_add_iff {p n : ℕ} (h : n < 2 ^ 32) :
    UInt32.ofNat p = UInt32.ofNat (p + n) ↔ n = 0 := by
  constructor
  · intro heq
    have := toNat_ofNat_add_sub (p := p) h
    rwa [← heq, UInt32.sub_self, eq_comm] at this
  · rintro rfl
    rfl

/-- The mask of a ring's size does not see the counter wrap. -/
theorem toNat_ofNat_and_mask {k : ℕ} (hk : k < 32) (p : ℕ) :
    (UInt32.ofNat p &&& UInt32.ofNat (2 ^ k - 1)).toNat = p % 2 ^ k := by
  have hmask : (2 ^ k - 1) % 2 ^ 32 = 2 ^ k - 1 := by
    have := Nat.pow_lt_pow_right (by decide : 1 < 2) hk
    exact Nat.mod_eq_of_lt (by omega)
  have hand := mod_add_and_mask hk.le p 0
  rw [Nat.add_zero, Nat.add_zero] at hand
  rw [UInt32.toNat_and, UInt32.toNat_ofNat', UInt32.toNat_ofNat', hmask, hand,
    Nat.and_two_pow_sub_one_eq_mod]

end Machinery
