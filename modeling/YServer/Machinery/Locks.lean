import Mathlib.Logic.Function.Basic

/-!
# Machinery/Locks — threads and the locks they hold

A thread holds at most one lock, which depends on where it is, and a lock knows its owner:

    points : thread → point      holds : point → Option lock      mutex : lock → Option thread

`Guards mutex holds points` says that who holds a lock is its owner, so nobody else holds it.  A
step of a program takes a free lock, gives one back, or leaves the locks alone; there is a rule for
each.
-/

namespace Machinery

variable {κ τ π : Type*} {mutex : κ → Option τ} {holds : π → Option κ} {points : τ → π} {t u : τ}
  {p : π} {k l : κ}

/-- Who holds a lock is its owner. -/
def Guards (mutex : κ → Option τ) (holds : π → Option κ) (points : τ → π) : Prop :=
  ∀ t k, holds (points t) = some k → mutex k = some t

namespace Guards

/-- **One thread holds a lock.** -/
theorem unique (h : Guards mutex holds points) (ht : holds (points t) = some k)
    (hu : holds (points u) = some k) : t = u :=
  Option.some.inj ((h t k ht).symm.trans (h u k hu))

/-- Two threads hold different locks. -/
theorem ne_of_ne (h : Guards mutex holds points) (hne : t ≠ u) (ht : holds (points t) = some k)
    (hu : holds (points u) = some l) : k ≠ l := by
  rintro rfl
  exact hne (h.unique ht hu)

/-- Nobody holds a free lock. -/
theorem holds_ne_of_free (h : Guards mutex holds points) (hfree : mutex k = none) (t : τ) :
    holds (points t) ≠ some k := fun ht => by
  cases hfree.symm.trans (h t k ht)

section Steps

variable [DecidableEq τ]

/-- A thread goes on without taking a lock or giving one back. -/
theorem move (h : Guards mutex holds points) (hp : holds (points t) = holds p) :
    Guards mutex holds (Function.update points t p) := by
  intro u l hu
  rcases eq_or_ne u t with rfl | hne
  · rw [Function.update_self, ← hp] at hu
    exact h u l hu
  · rw [Function.update_of_ne hne] at hu
    exact h u l hu

variable [DecidableEq κ]

/-- A free lock is taken. -/
theorem acquire (h : Guards mutex holds points) (hfree : mutex k = none) (hp : holds p = some k) :
    Guards (Function.update mutex k (some t)) holds (Function.update points t p) := by
  intro u l hu
  rcases eq_or_ne u t with rfl | hne
  · rw [Function.update_self, hp] at hu
    obtain rfl := Option.some.inj hu
    exact Function.update_self ..
  · rw [Function.update_of_ne hne] at hu
    have hl : l ≠ k := fun heq => h.holds_ne_of_free hfree u (heq ▸ hu)
    rw [Function.update_of_ne hl]
    exact h u l hu

/-- A lock is given back. -/
theorem release (h : Guards mutex holds points) (ht : holds (points t) = some k)
    (hp : holds p = none) :
    Guards (Function.update mutex k none) holds (Function.update points t p) := by
  intro u l hu
  rcases eq_or_ne u t with rfl | hne
  · rw [Function.update_self, hp] at hu
    cases hu
  · rw [Function.update_of_ne hne] at hu
    rw [Function.update_of_ne (h.ne_of_ne hne hu ht)]
    exact h u l hu

end Steps

end Guards

/-- What is new is the changed thread's. -/
theorem of_update_eq [DecidableEq τ] {a b : π} (h : Function.update points t a u = b)
    (hne : a ≠ b) : u ≠ t ∧ points u = b := by
  rcases eq_or_ne u t with rfl | hu
  · rw [Function.update_self] at h
    exact absurd h hne
  · rw [Function.update_of_ne hu] at h
    exact ⟨hu, h⟩

end Machinery
