import Mathlib.Data.List.Basic

/-!
# Machinery/Settle — writes that skip what is equal already

A cell that is written only when the new value is not `==` to the one it has:

    a ──b₁ == a──▸ a ──b₂──▸ b₂ ──b₃ == b₂──▸ b₂ ──b₄──▸ b₄

`settle` is where it ends and `changes` what happens on the way.  Writing the same values once more
is quiet if they are equal to each other (`beq_settle_of_pairwise`), and where `==` is an
equivalence only then (`changes_settle_eq_nil_iff`); the cell ends where it was in any case
(`settle_settle`).
-/

namespace Machinery

variable {α : Type*} [BEq α] {a : α} {bs : List α}

/-- One write. -/
def write (a b : α) : α := if b == a then a else b

/-- The value after a list of writes. -/
def settle (a : α) (bs : List α) : α := bs.foldl write a

/-- The writes that change it, with the old and the new value. -/
def changes : α → List α → List (α × α)
  | _, [] => []
  | a, b :: bs => (if b == a then [] else [(a, b)]) ++ changes (write a b) bs

@[simp] theorem settle_nil (a : α) : settle a [] = a := rfl

@[simp] theorem settle_cons (a b : α) (bs : List α) : settle a (b :: bs) = settle (write a b) bs :=
  rfl

theorem settle_append (a : α) (bs cs : List α) : settle a (bs ++ cs) = settle (settle a bs) cs :=
  List.foldl_append

/-- Where `==` is equality it ends at the last value. -/
theorem settle_eq_getLast? [LawfulBEq α] (a : α) (bs : List α) :
    settle a bs = bs.getLast?.getD a := by
  induction bs generalizing a with
  | nil => rfl
  | cons b bs ih =>
    have hwrite : write a b = b := by
      rw [write]
      split_ifs with h
      · exact (eq_of_beq h).symm
      · rfl
    rw [settle_cons, hwrite, ih, List.getLast?_cons, Option.getD_some]

theorem changes_append (a : α) (bs cs : List α) :
    changes a (bs ++ cs) = changes a bs ++ changes (settle a bs) cs := by
  induction bs generalizing a with
  | nil => rfl
  | cons b bs ih => rw [List.cons_append, changes, changes, settle_cons, ih, List.append_assoc]

theorem write_of_beq {b : α} (h : b == a) : write a b = a := if_pos h

theorem write_of_not_beq {b : α} (h : ¬ b == a) : write a b = b := if_neg h

/-- **Nothing changes exactly when all values are equal to the one that is there.** -/
theorem changes_eq_nil_iff : changes a bs = [] ↔ ∀ b ∈ bs, b == a := by
  induction bs with
  | nil => exact iff_of_true rfl nofun
  | cons b bs ih =>
    rw [changes, List.forall_mem_cons]
    by_cases hb : b == a
    · rw [if_pos hb, write_of_beq hb, List.nil_append, ih, and_iff_right hb]
    · rw [if_neg hb]
      exact iff_of_false (List.cons_ne_nil _ _) fun h => hb h.1

theorem settle_eq_self (h : ∀ b ∈ bs, b == a) : settle a bs = a := by
  induction bs with
  | nil => rfl
  | cons b bs ih =>
    obtain ⟨hb, hbs⟩ := List.forall_mem_cons.mp h
    rw [settle_cons, write_of_beq hb, ih hbs]

/-- The cell ends with one of the values, unless all are equal to the one that is there. -/
theorem settle_mem_or (a : α) (bs : List α) : settle a bs ∈ bs ∨ ∀ b ∈ bs, b == a := by
  induction bs generalizing a with
  | nil => exact Or.inr nofun
  | cons b bs ih =>
    rw [settle_cons]
    by_cases hb : b == a
    · rw [write_of_beq hb]
      exact (ih a).imp (List.mem_cons_of_mem b) fun h => List.forall_mem_cons.mpr ⟨hb, h⟩
    · rw [write_of_not_beq hb]
      refine Or.inl ?_
      rcases ih b with hmem | hall
      · exact List.mem_cons_of_mem b hmem
      · rw [settle_eq_self hall]
        exact List.mem_cons_self

/-- Values equal to each other are equal to the one the cell ends with. -/
theorem beq_settle_of_pairwise (h : ∀ b ∈ bs, ∀ c ∈ bs, b == c) (a : α) :
    ∀ b ∈ bs, b == settle a bs := by
  rcases settle_mem_or a bs with hmem | hall
  · exact fun b hb => h b hb _ hmem
  · rw [settle_eq_self hall]
    exact hall

section Equiv

variable [EquivBEq α]

theorem beq_write (a b : α) : b == write a b := by
  by_cases hb : b == a
  · rwa [write_of_beq hb]
  · rw [write_of_not_beq hb]
    exact BEq.refl b

/-- Cells that start out equal end with the same value, unless both are left alone. -/
theorem settle_eq_or {a' : α} (h : a == a') (bs : List α) :
    settle a bs = settle a' bs ∨ ∀ b ∈ bs, b == a := by
  induction bs with
  | nil => exact Or.inr nofun
  | cons b bs ih =>
    rw [settle_cons, settle_cons, List.forall_mem_cons]
    by_cases hb : b == a
    · rw [write_of_beq hb, write_of_beq (BEq.trans hb h)]
      exact ih.imp id fun hall => ⟨hb, hall⟩
    · have hb' : ¬ b == a' := fun hb' => hb (BEq.trans hb' (BEq.symm h))
      rw [write_of_not_beq hb, write_of_not_beq hb']
      exact Or.inl rfl

/-- **The same values a second time leave the cell where it is** — after the first of them the cell
is equal to what it was after the first of them the first time. -/
theorem settle_settle (a : α) (bs : List α) : settle (settle a bs) bs = settle a bs := by
  cases bs with
  | nil => rfl
  | cons b bs =>
    rw [settle_cons a, settle_cons]
    have hfirst : write a b == write (settle (write a b) bs) b :=
      BEq.trans (BEq.symm (beq_write a b)) (beq_write _ b)
    rcases settle_eq_or hfirst bs with heq | hall
    · exact heq.symm
    · rw [settle_eq_self hall, write_of_beq (beq_write a b), settle_eq_self hall]

/-- **They change nothing on the way exactly when they are equal to each other.** -/
theorem changes_settle_eq_nil_iff :
    changes (settle a bs) bs = [] ↔ ∀ b ∈ bs, ∀ c ∈ bs, b == c := by
  rw [changes_eq_nil_iff]
  refine ⟨fun h b hb c hc => ?_, fun h => beq_settle_of_pairwise h a⟩
  exact BEq.trans (h b hb) (BEq.symm (h c hc))

end Equiv

end Machinery
