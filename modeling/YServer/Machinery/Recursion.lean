import Mathlib.Algebra.Order.Group.Nat
import Mathlib.Algebra.Order.BigOperators.Group.List
import Mathlib.Data.Fintype.EquivFin
import Mathlib.Data.List.Forall2
import Mathlib.Logic.Relation

/-!
# Machinery/Recursion — which recursive calls come to an end

A recursive function that is given fuel has a result as soon as there is enough for the deepest of
its calls.  There is such a depth exactly if the calls below the first one are well founded
(`Fueled.exists_isSome_iff_acc`); and among finitely many arguments they are unless one of them
leads back to itself (`acc_iff_forall_not_transGen`):

    s ──▸ t ──▸ u ──▸ …            s ──▸ t ──▸ u
                  ends                   ▴     │   does not
                                         └─────┘
-/

namespace Machinery

open Relation

/-! ## Lists of calls -/

section MapM

variable {α β : Type} {f : α → Option β} {as : List α}

/-- `mapM` succeeds when all its calls do. -/
theorem mapM_eq_some_iff {bs : List β} :
    as.mapM f = some bs ↔ List.Forall₂ (fun a b => f a = some b) as bs := by
  induction as generalizing bs with
  | nil => simp [eq_comm]
  | cons a as ih =>
    simp only [List.mapM_cons, List.forall₂_cons_left_iff, ← ih]
    cases f a <;> cases as.mapM f <;> simp [eq_comm]

/-- They do when they are given the items one by one. -/
theorem mapM_eq_some_map {g : α → β} (h : ∀ a ∈ as, f a = some (g a)) :
    as.mapM f = some (as.map g) := by
  rw [mapM_eq_some_iff, List.forall₂_map_right_iff, List.forall₂_same]
  exact h

theorem isSome_mapM_iff : (as.mapM f).isSome ↔ ∀ a ∈ as, (f a).isSome := by
  induction as with
  | nil => simp
  | cons a as ih =>
    rw [List.forall_mem_cons, ← ih, List.mapM_cons]
    cases f a <;> cases as.mapM f <;> simp

/-- What the calls give together corresponds to what they are compared with one by one. -/
theorem exists_mapM_flatten {γ δ ε : Type} {R : γ → δ → Prop} {f : α → Option (List γ)}
    {g : ε → List δ} {es : List ε}
    (h : List.Forall₂ (fun a e => ∃ cs, f a = some cs ∧ List.Forall₂ R cs (g e)) as es) :
    ∃ css, as.mapM f = some css ∧ List.Forall₂ R css.flatten (es.flatMap g) := by
  induction h with
  | nil => exact ⟨[], rfl, List.Forall₂.nil⟩
  | cons ha _ ih =>
    obtain ⟨cs, hcs, hR⟩ := ha
    obtain ⟨css, hcss, hRs⟩ := ih
    refine ⟨cs :: css, ?_, List.rel_append hR hRs⟩
    rw [List.mapM_cons, hcs, hcss]
    rfl

end MapM

/-! ## Fuel -/

/-- **A recursion with fuel**: without any it has no result, and otherwise one if all its calls
have. -/
structure Fueled {σ β : Type*} (f : ℕ → σ → Option β) (calls : σ → List σ) : Prop where
  zero : ∀ s, f 0 s = none
  succ : ∀ k s, (f (k + 1) s).isSome ↔ ∀ t ∈ calls s, (f k t).isSome

namespace Fueled

variable {σ β : Type*} {f : ℕ → σ → Option β} {calls : σ → List σ} {s : σ} {k l : ℕ}

theorem isSome_succ (h : Fueled f calls) (hs : (f k s).isSome) : (f (k + 1) s).isSome := by
  induction k generalizing s with
  | zero =>
    rw [h.zero] at hs
    cases hs
  | succ k ih => exact (h.succ _ s).mpr fun t ht => ih ((h.succ k s).mp hs t ht)

/-- More fuel does no harm. -/
theorem isSome_of_le (h : Fueled f calls) (hkl : k ≤ l) (hs : (f k s).isSome) :
    (f l s).isSome := by
  induction l, hkl using Nat.le_induction with
  | base => exact hs
  | succ l _ ih => exact h.isSome_succ ih

/-- **The recursion has a result with enough fuel exactly when the calls below its argument are
well founded.** -/
theorem exists_isSome_iff_acc (h : Fueled f calls) (s : σ) :
    (∃ k, (f k s).isSome) ↔ Acc (fun t s => t ∈ calls s) s := by
  refine ⟨?_, fun hacc => ?_⟩
  · rintro ⟨k, hk⟩
    induction k generalizing s with
    | zero =>
      rw [h.zero] at hk
      cases hk
    | succ k ih => exact Acc.intro s fun t ht => ih t ((h.succ k s).mp hk t ht)
  · induction hacc with
    | intro s _ ih =>
      -- the calls need some fuel each; their sum is enough for all of them
      choose! fuel hfuel using ih
      refine ⟨((calls s).map fuel).sum + 1, (h.succ _ s).mpr fun t ht => ?_⟩
      have hle : fuel t ≤ ((calls s).map fuel).sum :=
        List.single_le_sum (fun _ _ => Nat.zero_le _) _ (List.mem_map_of_mem ht)
      exact h.isSome_of_le hle (hfuel t ht)

end Fueled

/-! ## Finitely many arguments -/

section Graph

variable {α : Type*} {r : α → α → Prop} {a b : α}

/-- What is well founded below an element does not lead back to it. -/
theorem not_transGen_of_acc (h : Acc r a) : ¬ TransGen r a a := by
  have htrans := h.transGen
  induction htrans with
  | intro a _ ih => exact fun hcycle => ih a hcycle (h.inv_of_transGen hcycle) hcycle

theorem acc_of_reflTransGen (h : Acc r a) (hb : ReflTransGen r b a) : Acc r b := by
  rcases reflTransGen_iff_eq_or_transGen.mp hb with rfl | hb
  · exact h
  · exact h.inv_of_transGen hb

/-- `r` and what follows from it, on what is below `a`. -/
def belowOf (r : α → α → Prop) (a : α) (x y : { b // ReflTransGen r b a }) : Prop :=
  TransGen r x.1 y.1

/-- **Among finitely many elements, those below one are well founded exactly when none of them is
below itself.** -/
theorem acc_iff_forall_not_transGen [Finite α] :
    Acc r a ↔ ∀ b, ReflTransGen r b a → ¬ TransGen r b b := by
  refine ⟨fun h b hb => not_transGen_of_acc (acc_of_reflTransGen h hb), fun h => ?_⟩
  have : IsTrans _ (belowOf r a) := ⟨fun _ _ _ => TransGen.trans⟩
  have : Std.Irrefl (belowOf r a) := ⟨fun x => h x.1 x.2⟩
  have hwf := Finite.wellFounded_of_trans_of_irrefl (belowOf r a)
  refine (hwf.apply ⟨a, ReflTransGen.refl⟩).of_fibration Subtype.val fun x b hb => ?_
  exact ⟨⟨b, ReflTransGen.head hb x.2⟩, TransGen.single hb, rfl⟩

end Graph

end Machinery
