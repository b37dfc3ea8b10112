import Mathlib.Data.List.Infix

/-!
# Machinery/Programs — programs that act, wait for values and return

A `Program` is what is left to be done: acts that leave a trace, and values it must be given on the
way.  A call is `bind`.  `Becomes` follows a program to where it stands after some inputs:

    p ──inputs, trace──▸ q      run p (inputs ++ more) = trace ++ run q more

A machine that keeps `Becomes` with every step has the program's trace when it stands still
(`Becomes.run_of_wait`, `Becomes.run_of_ret`), and a part of it before (`Becomes.isPrefix`).
-/

namespace Machinery

/-- A program with acts in `A` that waits for and returns values in `V`. -/
inductive Program (A V : Type)
  | ret (v : V)
  | act (a : A) (rest : Program A V)
  | wait (rest : V → Program A V)

namespace Program

variable {A V : Type}

/-- The program followed by another one, which is given the value it returns. -/
def bind : Program A V → (V → Program A V) → Program A V
  | .ret v, next => next v
  | .act a rest, next => .act a (rest.bind next)
  | .wait rest, next => .wait fun v => (rest v).bind next

/-- The trace of a program on a list of inputs, and its value if they are enough for it to
return. -/
def run : Program A V → List V → List A × Option V
  | .ret v, _ => ([], some v)
  | .act a rest, inputs => (a :: (rest.run inputs).1, (rest.run inputs).2)
  | .wait _, [] => ([], none)
  | .wait rest, v :: inputs => (rest v).run inputs

/-- The program after some acts. -/
def acts (as : List A) (p : Program A V) : Program A V := as.foldr act p

@[simp] theorem acts_nil (p : Program A V) : acts [] p = p := rfl

@[simp] theorem acts_cons (a : A) (as : List A) (p : Program A V) :
    acts (a :: as) p = act a (acts as p) := rfl

theorem bind_assoc (p : Program A V) (next next' : V → Program A V) :
    (p.bind next).bind next' = p.bind fun v => (next v).bind next' := by
  induction p with
  | ret v => rfl
  | act a rest ih => exact congrArg (act a) ih
  | wait rest ih => exact congrArg wait (funext ih)

theorem bind_ret (p : Program A V) : p.bind ret = p := by
  induction p with
  | ret v => rfl
  | act a rest ih => exact congrArg (act a) ih
  | wait rest ih => exact congrArg wait (funext ih)

/-! ## Where a program stands -/

/-- With these inputs `p` leaves the trace and goes on as `q`. -/
def Becomes (p : Program A V) (inputs : List V) (trace : List A) (q : Program A V) : Prop :=
  ∀ more, p.run (inputs ++ more) = (trace ++ (q.run more).1, (q.run more).2)

variable {p q : Program A V} {inputs : List V} {trace : List A}

theorem Becomes.refl (p : Program A V) : p.Becomes [] [] p := fun _ => rfl

theorem Becomes.acts {as : List A} (h : p.Becomes inputs trace (q.acts as)) :
    p.Becomes inputs (trace ++ as) q := by
  induction as generalizing trace with
  | nil => exact (List.append_nil trace).symm ▸ h
  | cons a as ih =>
    have hact : p.Becomes inputs (trace ++ [a]) (q.acts as) := by
      intro more
      rw [h more, List.append_assoc]
      rfl
    rw [← List.singleton_append, ← List.append_assoc]
    exact ih hact

theorem Becomes.wait {rest : V → Program A V} (h : p.Becomes inputs trace (.wait rest)) (v : V) :
    p.Becomes (inputs ++ [v]) trace (rest v) := by
  intro more
  rw [List.append_assoc]
  exact h (v :: more)

theorem Becomes.run_eq (h : p.Becomes inputs trace q) :
    p.run inputs = (trace ++ (q.run []).1, (q.run []).2) := by
  rw [← h [], List.append_nil]

theorem Becomes.isPrefix (h : p.Becomes inputs trace q) : trace <+: (p.run inputs).1 := by
  rw [h.run_eq]
  exact List.prefix_append _ _

theorem Becomes.run_of_wait {rest : V → Program A V} (h : p.Becomes inputs trace (.wait rest)) :
    p.run inputs = (trace, none) := by
  rw [h.run_eq, run, List.append_nil]

theorem Becomes.run_of_ret {v : V} (h : p.Becomes inputs trace (.ret v)) :
    p.run inputs = (trace, some v) := by
  rw [h.run_eq, run, List.append_nil]

end Program

end Machinery
