import YServer.Machinery.Programs
import Mathlib.Data.Fin.Tuple.Basic

/-!
# BaseNet/CallTree — coroutines that await each other, and the calls they stand for

A `Body` is what a `task` coroutine does: run its own code, suspend for an external event, create
the task of a child, and `co_await` the tasks it has created, each once.  Read in direct style
(`Body.direct`), a `co_await` is a call of the child's body.  In between stands the call stack:

    Config     running h │ a₁ a₂ …      a suspended activation for each call that has not returned
               ──next──▸ …              (`program_next`: what is left to be done is the same)

and no body goes on for ever without suspending (`halts`).
-/

namespace YServer

open Machinery

variable {E V : Type} {n : ℕ}

/-! ## Bodies -/

/-- **The body of a coroutine** with `n` tasks created and not awaited yet, whose own code has
effects in `E` and whose values are in `V`. -/
inductive Body (E V : Type) : ℕ → Type
  | coReturn (v : V) : Body E V 0
  | exec {n : ℕ} (e : E) (rest : Body E V n) : Body E V n
  /-- The coroutine suspends, and is resumed with a value. -/
  | suspend {n : ℕ} (rest : V → Body E V n) : Body E V n
  /-- The child is called, which gives its task. -/
  | create {n : ℕ} (child : Body E V 0) (rest : Body E V (n + 1)) : Body E V n
  /-- `co_await` on the `i`-th task. -/
  | coAwait {n : ℕ} (i : Fin (n + 1)) (rest : V → Body E V n) : Body E V (n + 1)

/-- What can be seen of a run. -/
inductive Event (E V : Type)
  | exec (e : E)
  /-- A body begins. -/
  | started
  | returned (v : V)
  /-- A parent goes on behind its `co_await`, with this value. -/
  | continued (v : V)

/-- **The body in direct style**, given what a call of each of its children does. -/
def Body.direct : {n : ℕ} → Body E V n → (Fin n → Program (Event E V) V) → Program (Event E V) V
  | _, .coReturn v, _ => .act (.returned v) (.ret v)
  | _, .exec e rest, calls => .act (.exec e) (rest.direct calls)
  | _, .suspend rest, calls => .wait fun v => (rest v).direct calls
  | _, .create child rest, calls =>
    rest.direct (Fin.cons (.act .started (child.direct Fin.elim0)) calls)
  | _, .coAwait i rest, calls =>
    (calls i).bind fun v => .act (.continued v) ((rest v).direct (i.removeNth calls))

/-- A call of the body. -/
def Body.call (body : Body E V 0) : Program (Event E V) V := .act .started (body.direct Fin.elim0)

/-! ## The call stack -/

/-- A task that was created: the handle of its coroutine, and the body. -/
structure Created (E V : Type) where
  handle : ℕ
  body : Body E V 0

/-- A call that waits for the one above it to return. -/
structure Activation (E V : Type) where
  handle : ℕ
  size : ℕ
  tasks : Fin size → Created E V
  rest : V → Body E V size

/-- What a tree of calls is doing. -/
inductive Config (E V : Type)
  | created (root : Created E V)
  | running (handle : ℕ) {n : ℕ} (tasks : Fin n → Created E V) (rest : Body E V n)
    (stack : List (Activation E V))
  | suspended (handle : ℕ) {n : ℕ} (tasks : Fin n → Created E V) (rest : V → Body E V n)
    (stack : List (Activation E V))
  | ended (handle : ℕ) (v : V)

/-- A return to the stack. -/
def Config.returnTo (handle : ℕ) (v : V) : List (Activation E V) → List (Event E V) × Config E V
  | [] => ([.returned v], .ended handle v)
  | a :: stack => ([.returned v, .continued v], .running a.handle a.tasks (a.rest v) stack)

/-- One step of the running body; the handle is for a child it creates. -/
def Config.next (fresh handle : ℕ) : {n : ℕ} → (Fin n → Created E V) → Body E V n →
    List (Activation E V) → List (Event E V) × Config E V
  | _, _, .coReturn v, stack => returnTo handle v stack
  | _, tasks, .exec e rest, stack => ([.exec e], .running handle tasks rest stack)
  | _, tasks, .suspend rest, stack => ([], .suspended handle tasks rest stack)
  | _, tasks, .create child rest, stack =>
    ([], .running handle (Fin.cons ⟨fresh, child⟩ tasks) rest stack)
  | _, tasks, .coAwait i rest, stack =>
    ([.started], .running (tasks i).handle Fin.elim0 (tasks i).body
      (⟨handle, _, i.removeNth tasks, rest⟩ :: stack))

/-! ## The program that is left -/

/-- What the stack does with a value returned to it. -/
def continueWith : List (Activation E V) → V → Program (Event E V) V
  | [], v => .ret v
  | a :: stack, v =>
    (Program.act (.continued v) ((a.rest v).direct fun i => (a.tasks i).body.call)).bind
      (continueWith stack)

def Config.program : Config E V → Program (Event E V) V
  | .created root => root.body.call
  | .running _ tasks rest stack =>
    (rest.direct fun i => (tasks i).body.call).bind (continueWith stack)
  | .suspended _ tasks rest stack =>
    .wait fun v => ((rest v).direct fun i => (tasks i).body.call).bind (continueWith stack)
  | .ended _ v => .ret v

theorem calls_elim0 : (fun i => (Fin.elim0 i : Created E V).body.call)
    = (Fin.elim0 : Fin 0 → Program (Event E V) V) :=
  funext fun i => i.elim0

/-- The root begins. -/
theorem program_created (root : Created E V) : (Config.created root).program
      = (Config.running root.handle Fin.elim0 root.body []).program.acts [.started] := by
  rw [Config.program, Config.program, calls_elim0]
  exact congrArg (Program.act Event.started) (Program.bind_ret _).symm

/-- **A step does what the direct-style program does next.** -/
theorem program_next (fresh handle : ℕ) (tasks : Fin n → Created E V) (rest : Body E V n)
    (stack : List (Activation E V)) : (Config.running handle tasks rest stack).program
      = (Config.next fresh handle tasks rest stack).2.program.acts
        (Config.next fresh handle tasks rest stack).1 := by
  cases rest with
  | coReturn v => cases stack <;> rfl
  | exec e rest => rfl
  | suspend rest => rfl
  | create child rest =>
    refine congrArg (fun calls => (rest.direct calls).bind (continueWith stack)) ?_
    exact funext fun i => Fin.cases rfl (fun _ => rfl) i
  | coAwait i rest =>
    simp only [Config.program, Config.next, Body.direct, Program.bind_assoc, Program.acts_cons,
      Program.acts_nil, calls_elim0]
    rfl

/-! ## Every body returns or suspends -/

/-- The running body gets to its end, or to a suspension, whatever the handles of its children. -/
inductive Halts : Config E V → Prop
  | created (root : Created E V) : Halts (.created root)
  | suspended (handle : ℕ) {n : ℕ} (tasks : Fin n → Created E V) (rest : V → Body E V n)
    (stack : List (Activation E V)) : Halts (.suspended handle tasks rest stack)
  | ended (handle : ℕ) (v : V) : Halts (.ended handle v)
  | next {handle n : ℕ} {tasks : Fin n → Created E V} {rest : Body E V n}
    {stack : List (Activation E V)}
    (h : ∀ fresh, Halts (Config.next fresh handle tasks rest stack).2) :
    Halts (.running handle tasks rest stack)

/-- The stack halts whatever is returned to it. -/
def HaltsInto (stack : List (Activation E V)) : Prop :=
  ∀ handle v, Halts (Config.returnTo handle v stack).2

/-- The body halts if the stack does. -/
def Body.Halting (body : Body E V 0) : Prop :=
  ∀ handle tasks stack, HaltsInto stack → Halts (.running handle tasks body stack)

/-- By induction on the body: a child is halting when it is created, so it is when it is awaited. -/
theorem halts_running (rest : Body E V n) : ∀ handle (tasks : Fin n → Created E V) stack,
    (∀ i, (tasks i).body.Halting) → HaltsInto stack → Halts (.running handle tasks rest stack) := by
  induction rest with
  | coReturn v => exact fun handle _ _ _ hstack => .next fun _ => hstack handle v
  | exec e rest ih =>
    exact fun handle tasks stack htasks hstack => .next fun _ => ih handle tasks stack htasks hstack
  | suspend rest => exact fun _ _ _ _ _ => .next fun _ => .suspended ..
  | create child rest ihchild ih =>
    intro handle tasks stack htasks hstack
    refine .next fun fresh => ih handle _ stack (Fin.cases ?_ htasks) hstack
    exact fun handle tasks stack hstack => ihchild handle tasks stack nofun hstack
  | coAwait i rest ih =>
    intro handle tasks stack htasks hstack
    refine .next fun _ => htasks i _ _ _ fun _ v => ?_
    exact ih v handle _ stack (fun j => htasks _) hstack

theorem halting (body : Body E V 0) : body.Halting := fun handle tasks stack =>
  halts_running body handle tasks stack fun i => i.elim0

/-- **No tree of calls goes on for ever without suspending.** -/
theorem halts (config : Config E V) : Halts config := by
  have hinto : ∀ stack : List (Activation E V), HaltsInto stack := by
    intro stack
    induction stack with
    | nil => exact fun _ _ => .ended ..
    | cons a stack ih =>
      exact fun _ v => halts_running _ _ _ _ (fun _ => halting _) ih
  cases config with
  | created root => exact .created root
  | running handle tasks rest stack =>
    exact halts_running _ _ _ _ (fun _ => halting _) (hinto stack)
  | suspended => exact .suspended ..
  | ended => exact .ended ..

end YServer
