import YServer.BaseNet.CallTree
import YServer.BaseNet.Task
import YServer.Machinery.Cells
import Mathlib.Data.Fintype.Basic
import Mathlib.Data.List.OfFn

/-!
# BaseNet/CoAwait — is a co_await a call?

A `co_await` on a task writes the parent's handle into the child's promise and transfers to the
child; the child's final suspension transfers to the handle it finds there.  So while a leaf is
suspended the stack is in the promises, and nowhere else:

    root ◂──calling_coroutine── child ◂──calling_coroutine── leaf      resumed by the event

The frames in memory are those of the call stack (`Refines`): the one in control, one for every call
that has not returned, and the children that were created and not awaited yet.  With every step they
stay that (`tick_follows`), so the bodies run as in direct style (`behavesLikeCalls_of_run`).
-/

namespace YServer

open Machinery

variable {E V : Type} {n : ℕ}

/-! ## Coroutines in memory -/

/-- Where a coroutine goes on, with the handles its tasks hold. -/
inductive Code (E V : Type)
  | body {n : ℕ} (tasks : Fin n → ℕ) (rest : Body E V n)
  /-- Behind a suspension, with the value of the event. -/
  | suspended {n : ℕ} (tasks : Fin n → ℕ) (rest : V → Body E V n)
  /-- Behind a `co_await`; the awaiter has the handle of the child. -/
  | awaiting (child : ℕ) {n : ℕ} (tasks : Fin n → ℕ) (rest : V → Body E V n)
  | ended

/-- A frame with what else is in it and its promise. -/
structure Coroutine (E V : Type) extends Frame where
  callingCoroutine : Option ℕ
  returnValue : Option V
  code : Code E V

/-- A frame whose coroutine has not returned. -/
def Coroutine.new (phase : Phase) (callingCoroutine : Option ℕ) (code : Code E V) :
    Coroutine E V where
  phase := phase
  detachedFlag := false
  alive := true
  destroyed := 0
  touchedDead := false
  callingCoroutine := callingCoroutine
  returnValue := none
  code := code

/-- One that has. -/
def Coroutine.returned (callingCoroutine : Option ℕ) (v : V) : Coroutine E V :=
  { Coroutine.new .finished callingCoroutine .ended with returnValue := some v }

/-- One whose task is destroyed. -/
def Coroutine.taken (callingCoroutine : Option ℕ) (v : V) : Coroutine E V :=
  let f : Coroutine E V := .returned callingCoroutine v
  { f with toFrame := f.toFrame.taskDestructor }

/-- What is at a handle no coroutine has had yet. -/
def Coroutine.none : Coroutine E V :=
  { Coroutine.new .finished Option.none .ended with alive := false }

/-- The frames, the coroutine that is running if control is not with the caller of `resume` or the
event loop, and what there is to see of the run. -/
structure Machine (E V : Type) where
  frames : ℕ → Coroutine E V
  /-- The next handle. -/
  next : ℕ
  control : Option ℕ
  trace : List (Event E V)

namespace Machine

variable (s : Machine E V)

def setFrame (h : ℕ) (f : Coroutine E V) : Machine E V :=
  { s with frames := Function.update s.frames h f }

def emit (e : Event E V) : Machine E V := { s with trace := s.trace ++ [e] }

/-- The coroutine runs on from here. -/
def goOn (h : ℕ) (tasks : Fin n → ℕ) (rest : Body E V n) : Machine E V :=
  { s.setFrame h { s.frames h with phase := .running, code := .body tasks rest } with
    control := some h }

/-- `task_awaiter::await_resume`: the value in the child's promise.  The task is destroyed at the
end of the expression.  Not defined are a destroyed promise and one without a value. -/
def awaitResume (h child : ℕ) (tasks : Fin n → ℕ) (rest : V → Body E V n) :
    Option (Machine E V) :=
  let f := s.frames child
  match f.alive, f.returnValue with
  | true, some v =>
    let s := s.setFrame child { f with toFrame := f.toFrame.taskDestructor }
    some ((s.emit (.continued v)).goOn h tasks (rest v))
  | _, _ => none

/-- `resume` of a handle, or a transfer to it; defined for a coroutine at its initial suspension or
in a `co_await`. -/
def resumeHandle (h : ℕ) : Option (Machine E V) :=
  let f := s.frames h
  match f.alive, f.phase, f.code with
  | true, .created, .body tasks rest => some ((s.emit .started).goOn h tasks rest)
  | true, .suspended, .awaiting child tasks rest => s.awaitResume h child tasks rest
  | _, _, _ => none

/-- `co_return`: `return_value`, then the final suspension with `final_awaiter::await_suspend`. -/
def coReturn (h : ℕ) (v : V) : Option (Machine E V) :=
  let f := { s.frames h with phase := .finished, returnValue := some v, code := .ended }
  let f := { f with toFrame := f.toFrame.finalAwaiter }
  let s := (s.emit (.returned v)).setFrame h f
  if f.touchedDead then none
  else
    match f.callingCoroutine with
    | some caller => s.resumeHandle caller
    | none => some { s with control := none }

/-- `co_await` on a task: `await_ready`, and `await_suspend` if the child has not ended. -/
def coAwait (h child : ℕ) (tasks : Fin n → ℕ) (rest : V → Body E V n) : Option (Machine E V) :=
  if (s.frames child).done then s.awaitResume h child tasks rest
  else
    let s := s.setFrame h
      { s.frames h with phase := .suspended, code := .awaiting child tasks rest }
    let f := s.frames child
    if f.alive then
      (s.setFrame child { f with callingCoroutine := some h }).resumeHandle child
    else none

/-- The running coroutine does one thing. -/
def exec (h : ℕ) : {n : ℕ} → (Fin n → ℕ) → Body E V n → Option (Machine E V)
  | _, _, .coReturn v => s.coReturn h v
  | _, tasks, .exec e rest => some ((s.emit (.exec e)).goOn h tasks rest)
  | _, tasks, .suspend rest =>
    some { s.setFrame h { s.frames h with phase := .suspended, code := .suspended tasks rest } with
      control := none }
  | _, tasks, .create child rest =>
    let s' := s.setFrame s.next (.new .created none (.body Fin.elim0 child))
    some ({ s' with next := s.next + 1 }.goOn h (Fin.cons s.next tasks) rest)
  | _, tasks, .coAwait i rest => s.coAwait h (tasks i) (i.removeNth tasks) rest

def tick : Option (Machine E V) :=
  match s.control with
  | none => none
  | some h =>
    match (s.frames h).phase, (s.frames h).code with
    | .running, .body tasks rest => s.exec h tasks rest
    | _, _ => none

end Machine

inductive CallAction (V : Type)
  /-- `task::resume` of the root's task, once. -/
  | resume
  /-- The event a coroutine waits for resumes its handle, with a value. -/
  | wake (handle : ℕ) (v : V)
  | tick

/-- What an action makes of a state.  The root is resumed, and events happen, while no coroutine
runs. -/
def Machine.step (s : Machine E V) : CallAction V → Option (Machine E V)
  | .resume => if s.control = none ∧ (s.frames 0).phase = .created then s.resumeHandle 0 else none
  | .wake h v =>
    match s.control, (s.frames h).code with
    | none, .suspended tasks rest =>
      some (s.goOn h tasks (rest v))
    | _, _ => none
  | .tick => s.tick

/-- The value of an event. -/
def CallAction.input : CallAction V → Option V
  | .wake _ v => some v
  | .resume | .tick => none

/-- A tree of coroutines, from the call of its root on; its task is kept. -/
def callSystem (root : Body E V 0) : System (Machine E V) (CallAction V) where
  init := {
    frames := Function.update (fun _ => .none) 0 (.new .created none (.body Fin.elim0 root))
    next := 1
    control := none
    trace := [] }
  step := Machine.step

/-! ## The frames of a call stack -/

/-- The frame of a child that has not begun. -/
def Created.cell (t : Created E V) : ℕ × Coroutine E V :=
  (t.handle, .new .created none (.body Fin.elim0 t.body))

def taskCells (tasks : Fin n → Created E V) : List (ℕ × Coroutine E V) :=
  List.ofFn fun i => (tasks i).cell

def handles (tasks : Fin n → Created E V) (i : Fin n) : ℕ := (tasks i).handle

/-- The handle a coroutine on top of the stack finds in its promise. -/
def caller (stack : List (Activation E V)) : Option ℕ := stack.head?.map Activation.handle

/-- The frames of the stack below the coroutine with this handle. -/
def stackCells : ℕ → List (Activation E V) → List (ℕ × Coroutine E V)
  | _, [] => []
  | child, a :: stack =>
    (a.handle, .new .suspended (caller stack) (.awaiting child (handles a.tasks) a.rest))
      :: (taskCells a.tasks ++ stackCells a.handle stack)

def Config.cells : Config E V → List (ℕ × Coroutine E V)
  | .created root => [root.cell]
  | .running h tasks rest stack =>
    (h, .new .running (caller stack) (.body (handles tasks) rest))
      :: (taskCells tasks ++ stackCells h stack)
  | .suspended h tasks rest stack =>
    (h, .new .suspended (caller stack) (.suspended (handles tasks) rest))
      :: (taskCells tasks ++ stackCells h stack)
  | .ended h v => [(h, .returned none v)]

/-- The coroutine in control. -/
def Config.control : Config E V → Option ℕ
  | .running h _ _ _ => some h
  | .created _ | .suspended _ _ _ _ | .ended _ _ => none

/-- The handle at the bottom of the stack. -/
def bottom : ℕ → List (Activation E V) → ℕ
  | h, [] => h
  | _, a :: stack => bottom a.handle stack

def Config.root : Config E V → ℕ
  | .created root => root.handle
  | .running h _ _ stack | .suspended h _ _ stack => bottom h stack
  | .ended h _ => h

/-- **The machine's frames are those of the call stack**; all others have ended. -/
structure Refines (s : Machine E V) (config : Config E V) : Prop where
  holds : HoldsCells (·.code = .ended) s.frames config.cells
  fresh : ∀ h ∈ config.cells.map Prod.fst, h < s.next
  control : s.control = config.control
  root : config.root = 0

/-- The machine has done what leads to the configuration. -/
structure Follows (s t : Machine E V) (result : List (Event E V) × Config E V) : Prop where
  refines : Refines t result.2
  trace : t.trace = s.trace ++ result.1

/-! ## One step -/

section Step

variable {s : Machine E V} {h : ℕ} {tasks : Fin n → Created E V} {stack : List (Activation E V)}

/-- A coroutine begins when it is resumed at its initial suspension. -/
theorem Machine.resumeHandle_created {callingCoroutine : Option ℕ} {body : Body E V 0}
    (hread : s.frames h = .new .created callingCoroutine (.body Fin.elim0 body)) :
    s.resumeHandle h = some ((s.emit .started).goOn h Fin.elim0 body) := by
  rw [resumeHandle, hread]
  rfl

/-- A `co_await` on a child that has not begun writes the parent's handle into its promise, and
begins it. -/
theorem Machine.coAwait_created {child : ℕ} {tasks : Fin n → ℕ} {rest : V → Body E V n}
    {callingCoroutine : Option ℕ} {code : Code E V} {body : Body E V 0}
    (hread : s.frames h = .new .running callingCoroutine code)
    (hchild : s.frames child = .new .created none (.body Fin.elim0 body)) (hne : child ≠ h) :
    s.coAwait h child tasks rest
      = some ((((s.setFrame h
          (.new .suspended callingCoroutine (.awaiting child tasks rest))).setFrame
        child (.new .created (some h) (.body Fin.elim0 body))).emit .started).goOn
          child Fin.elim0 body) := by
  let s' := s.setFrame h (.new .suspended callingCoroutine (.awaiting child tasks rest))
  have hready : ¬ (s.frames child).done := by
    rw [hchild]
    exact Bool.false_ne_true
  have hset : s'.frames child = .new .created none (.body Fin.elim0 body) :=
    (Function.update_of_ne hne ..).trans hchild
  rw [coAwait, if_neg hready, hread]
  change (if (s'.frames child).alive then
    (s'.setFrame child { s'.frames child with callingCoroutine := some h }).resumeHandle child
    else none) = _
  rw [hset]
  exact resumeHandle_created (Function.update_self ..)

/-- A child that was started by a `co_await` goes back to its parent, which takes the value and
destroys the child's frame. -/
theorem Machine.coReturn_caller {p : ℕ} {tasks : Fin n → ℕ} {rest : V → Body E V n}
    {callingCoroutine : Option ℕ} {code : Code E V} {v : V}
    (hread : s.frames h = .new .running (some p) code)
    (hcaller : s.frames p = .new .suspended callingCoroutine (.awaiting h tasks rest))
    (hne : p ≠ h) : s.coReturn h v
      = some (((((s.emit (.returned v)).setFrame h (.returned (some p) v)).setFrame h
        (.taken (some p) v)).emit (.continued v)).goOn p tasks (rest v)) := by
  let s' := (s.emit (.returned v)).setFrame h (.returned (some p) v)
  have hself : s'.frames h = .returned (some p) v := Function.update_self ..
  have hcaller' : s'.frames p = .new .suspended callingCoroutine (.awaiting h tasks rest) :=
    (Function.update_of_ne hne ..).trans hcaller
  rw [coReturn, hread]
  change s'.resumeHandle p = _
  rw [resumeHandle, hcaller']
  change s'.awaitResume p h tasks rest = _
  rw [awaitResume, hself]
  rfl

/-- A task of a coroutine comes first in an order of its cells. -/
theorem taskCells_perm (tasks : Fin (n + 1) → Created E V) (i : Fin (n + 1)) :
    (taskCells tasks).Perm ((tasks i).cell :: taskCells (i.removeNth tasks)) := by
  rw [← Multiset.coe_eq_coe, ← Multiset.cons_coe, taskCells, taskCells, ← Fin.univ_val_map,
    ← Fin.univ_val_map, Fin.univ_succAbove n i, Finset.cons_val, Multiset.map_cons, Finset.map_val,
    Multiset.map_map]
  rfl

/-- The configuration's coroutine runs on where its cell says, among those of the stack. -/
theorem refines_goOn {phase : Phase} {code : Code E V} {tasks' : Fin n → ℕ} (rest : Body E V n)
    (htasks : handles tasks = tasks')
    (hholds : HoldsCells (·.code = .ended) s.frames
      ((h, .new phase (caller stack) code) :: (taskCells tasks ++ stackCells h stack)))
    (hfresh : ∀ k ∈ (Config.running h tasks rest stack).cells.map Prod.fst, k < s.next)
    (hroot : bottom h stack = 0) :
    Refines (s.goOn h tasks' rest) (.running h tasks rest stack) := by
  refine ⟨?_, hfresh, rfl, hroot⟩
  subst htasks
  have hframe : { s.frames h with phase := .running, code := .body (handles tasks) rest }
      = Coroutine.new .running (caller stack) (.body (handles tasks) rest) := by
    rw [hholds.read]
    rfl
  change HoldsCells _ (Function.update s.frames h _) _
  rw [hframe]
  exact hholds.write _

theorem tick_eq {rest : Body E V n} (hs : Refines s (.running h tasks rest stack)) :
    s.tick = s.exec h (handles tasks) rest := by
  have hcontrol : s.control = some h := hs.control
  simp only [Machine.tick, hcontrol, hs.holds.read]
  rfl

theorem exec_follows {e : E} {rest : Body E V n}
    (hs : Refines s (.running h tasks (.exec e rest) stack)) :
    ∃ t, s.tick = some t ∧ Follows s t ([.exec e], .running h tasks rest stack) :=
  ⟨_, tick_eq hs, refines_goOn (s := s.emit (.exec e)) rest rfl hs.holds hs.fresh hs.root, rfl⟩

theorem suspend_follows {rest : V → Body E V n}
    (hs : Refines s (.running h tasks (.suspend rest) stack)) :
    ∃ t, s.tick = some t ∧ Follows s t ([], .suspended h tasks rest stack) := by
  refine ⟨_, tick_eq hs, ⟨?_, hs.fresh, rfl, hs.root⟩, (List.append_nil _).symm⟩
  change HoldsCells _ (Function.update s.frames h { s.frames h with
    phase := .suspended, code := .suspended (handles tasks) rest }) _
  rw [hs.holds.read]
  exact hs.holds.write _

theorem handles_elim0 : handles (Fin.elim0 : Fin 0 → Created E V) = Fin.elim0 :=
  funext fun i => i.elim0

theorem handles_cons (t : Created E V) (tasks : Fin n → Created E V) :
    handles (Fin.cons t tasks) = Fin.cons t.handle (handles tasks) :=
  funext fun i => Fin.cases rfl (fun _ => rfl) i

theorem taskCells_cons (t : Created E V) (tasks : Fin n → Created E V) :
    taskCells (Fin.cons t tasks) = t.cell :: taskCells tasks := by
  rw [taskCells, List.ofFn_succ]
  rfl

/-- **A child is created** with a handle that is no other coroutine's. -/
theorem create_follows {child : Body E V 0} {rest : Body E V (n + 1)}
    (hs : Refines s (.running h tasks (.create child rest) stack)) :
    ∃ t, s.tick = some t ∧
      Follows s t ([], .running h (Fin.cons ⟨s.next, child⟩ tasks) rest stack) := by
  have hnew : s.next ∉ (Config.running h tasks (.create child rest) stack).cells.map Prod.fst :=
    fun hmem => Nat.lt_irrefl _ (hs.fresh _ hmem)
  have hholds := (hs.holds.alloc hnew (Created.cell ⟨s.next, child⟩).2).perm (.swap ..)
  let s' : Machine E V :=
    { s.setFrame s.next (.new .created none (.body Fin.elim0 child)) with next := s.next + 1 }
  refine ⟨s'.goOn h (Fin.cons s.next (handles tasks)) rest, tick_eq hs, ?_,
    (List.append_nil _).symm⟩
  have hcells : taskCells (Fin.cons ⟨s.next, child⟩ tasks) ++ stackCells h stack
      = Created.cell ⟨s.next, child⟩ :: (taskCells tasks ++ stackCells h stack) := by
    rw [taskCells_cons, List.cons_append]
  refine refines_goOn rest (handles_cons ⟨s.next, child⟩ tasks) (by rw [hcells]; exact hholds)
    (fun k hk => ?_) hs.root
  rw [Config.cells, hcells, ((List.Perm.swap ..).map _).mem_iff] at hk
  rcases List.mem_cons.mp hk with rfl | hk
  · exact Nat.lt_succ_self _
  · exact Nat.lt_succ_of_lt (hs.fresh k hk)

/-- **A `co_await` starts the child**, with the parent's handle in its promise. -/
theorem coAwait_follows {tasks : Fin (n + 1) → Created E V} {i : Fin (n + 1)}
    {rest : V → Body E V n} (hs : Refines s (.running h tasks (.coAwait i rest) stack)) :
    ∃ t, s.tick = some t ∧ Follows s t ([.started], .running (tasks i).handle Fin.elim0
      (tasks i).body (⟨h, n, i.removeNth tasks, rest⟩ :: stack)) := by
  have hperm := ((taskCells_perm tasks i).append_right (stackCells h stack)).cons
    (h, Coroutine.new .running (caller stack) (.body (handles tasks) (.coAwait i rest)))
  have hholds := hs.holds.perm hperm
  have hchild := (hholds.perm (.swap ..)).read
  let awaiting : Coroutine E V := .new .suspended (caller stack)
    (.awaiting (tasks i).handle (i.removeNth (handles tasks)) rest)
  have hawaiting := (hholds.write awaiting).perm (.swap ..)
  have hcalling := hawaiting.write (.new .created (some h) (.body Fin.elim0 (tasks i).body))
  have hne : (tasks i).handle ≠ h := fun heq => hawaiting.notMem (heq ▸ List.mem_cons_self)
  have htick := (tick_eq hs).trans (Machine.coAwait_created hs.holds.read hchild hne)
  refine ⟨_, htick, ?_, rfl⟩
  refine refines_goOn _ handles_elim0 hcalling (fun k hk => hs.fresh k ?_) hs.root
  have hkeys := ((hperm.trans (.swap ..)).map Prod.fst).mem_iff (a := k)
  exact hkeys.mpr hk

/-- **A `co_return` goes back to the caller**, which goes on with the child's value; the root's to
where the root was resumed from. -/
theorem coReturn_follows {tasks : Fin 0 → Created E V} {v : V}
    (hs : Refines s (.running h tasks (.coReturn v) stack)) :
    ∃ t, s.tick = some t ∧ Follows s t (Config.returnTo h v stack) := by
  cases stack with
  | nil =>
    have hholds := hs.holds.write (.returned none v)
    have htick : s.tick
        = some { (s.emit (.returned v)).setFrame h (.returned none v) with control := none } := by
      rw [tick_eq hs, Machine.exec, Machine.coReturn, hs.holds.read]
      rfl
    exact ⟨_, htick, ⟨hholds, hs.fresh, rfl, hs.root⟩, rfl⟩
  | cons a stack =>
    have hcaller := (hs.holds.perm (.swap ..)).read
    have hne : a.handle ≠ h := fun heq => hs.holds.notMem (heq ▸ List.mem_cons_self)
    have hholds := ((hs.holds.write (.returned (some a.handle) v)).write
      (.taken (some a.handle) v)).free rfl
    refine ⟨_, (tick_eq hs).trans (Machine.coReturn_caller hs.holds.read hcaller hne),
      refines_goOn _ rfl hholds (fun k hk => hs.fresh k (List.mem_cons_of_mem _ hk)) hs.root,
      List.append_assoc ..⟩

/-- **What a step of the machine does is a step of the call stack.** -/
theorem tick_follows {rest : Body E V n} (hs : Refines s (.running h tasks rest stack)) :
    ∃ t, s.tick = some t ∧ Follows s t (Config.next s.next h tasks rest stack) := by
  cases rest with
  | coReturn v => exact coReturn_follows hs
  | exec e rest => exact exec_follows hs
  | suspend rest => exact suspend_follows hs
  | create child rest => exact create_follows hs
  | coAwait i rest => exact coAwait_follows hs

end Step

/-! ## The coroutine an event resumes, and the root's -/

/-- The coroutine is resumed by an event. -/
def Code.Waits : Code E V → Prop
  | .suspended _ _ => True
  | .body _ _ | .awaiting _ _ _ | .ended => False

/-- Frames that have neither ended nor wait for an event. -/
def Code.Passive : Code E V → Prop
  | .body _ _ | .awaiting _ _ _ => True
  | .suspended _ _ | .ended => False

theorem passive_of_mem_taskCells {tasks : Fin n → Created E V} {c : ℕ × Coroutine E V}
    (hc : c ∈ taskCells tasks) : c.2.code.Passive := by
  obtain ⟨i, rfl⟩ := List.mem_ofFn.mp hc
  trivial

theorem passive_of_mem_stackCells {h : ℕ} {stack : List (Activation E V)} {c : ℕ × Coroutine E V}
    (hc : c ∈ stackCells h stack) : c.2.code.Passive := by
  induction stack generalizing h with
  | nil => cases hc
  | cons a stack ih =>
    rcases List.mem_cons.mp hc with rfl | hc
    · trivial
    · exact (List.mem_append.mp hc).elim passive_of_mem_taskCells ih

theorem passive_of_mem_append {h : ℕ} {tasks : Fin n → Created E V} {stack : List (Activation E V)}
    {c : ℕ × Coroutine E V} (hc : c ∈ taskCells tasks ++ stackCells h stack) : c.2.code.Passive :=
  (List.mem_append.mp hc).elim passive_of_mem_taskCells passive_of_mem_stackCells

/-- A coroutine that waits for an event has one of the cells. -/
theorem exists_cell_of_waits {s : Machine E V} {config : Config E V} (hs : Refines s config) {h : ℕ}
    (hwaits : (s.frames h).code.Waits) :
    ∃ c ∈ config.cells, c.1 = h ∧ c.2.code = (s.frames h).code := by
  by_contra hnot
  have hended := hs.holds.others h fun hmem => by
    obtain ⟨c, hc, rfl⟩ := List.mem_map.mp hmem
    exact hnot ⟨c, hc, rfl, congrArg _ (hs.holds.read_of_mem c hc).symm⟩
  rw [hended] at hwaits
  exact hwaits

/-- **The coroutine that waits for an event is the one on top of the stack.** -/
theorem suspended_of_refines {s : Machine E V} {config : Config E V} (hs : Refines s config)
    {h : ℕ} {tasks : Fin n → ℕ} {rest : V → Body E V n}
    (hcode : (s.frames h).code = .suspended tasks rest) :
    ∃ tasks' stack, config = .suspended h tasks' rest stack ∧ handles tasks' = tasks := by
  have hwaits : (s.frames h).code.Waits := by
    rw [hcode]
    trivial
  obtain ⟨c, hc, rfl, heq⟩ := exists_cell_of_waits hs hwaits
  rw [hcode] at heq
  have hactive : ¬ c.2.code.Passive := by
    rw [heq]
    exact id
  cases config with
  | created root | ended h v =>
    obtain rfl := List.mem_singleton.mp hc
    cases heq
  | running h tasks' rest' stack =>
    rcases List.mem_cons.mp hc with rfl | hc
    · cases heq
    · exact absurd (passive_of_mem_append hc) hactive
  | suspended h tasks' rest' stack =>
    rcases List.mem_cons.mp hc with rfl | hc
    · cases heq
      exact ⟨tasks', stack, rfl, rfl⟩
    · exact absurd (passive_of_mem_append hc) hactive

/-- **The root is on the stack**: it is the coroutine on top, or it awaits a child. -/
theorem bottom_frame {m : ℕ → Coroutine E V} {h : ℕ} {phase : Phase} {c : Option ℕ}
    {code : Code E V} {tasks : Fin n → Created E V} {stack : List (Activation E V)}
    (hread : ∀ cell ∈ (h, .new phase c code) :: (taskCells tasks ++ stackCells h stack),
      m cell.1 = cell.2) :
    ∃ phase' c' code', m (bottom h stack) = .new phase' c' code' ∧
      (phase' = phase ∨ phase' = .suspended) := by
  induction stack generalizing h phase c code n tasks with
  | nil => exact ⟨_, _, _, hread _ List.mem_cons_self, Or.inl rfl⟩
  | cons a stack ih =>
    obtain ⟨phase', c', code', hbottom, hphase⟩ := ih fun cell hcell =>
      hread cell (List.mem_cons_of_mem _ (List.mem_append_right _ hcell))
    exact ⟨phase', c', code', hbottom, Or.inr (hphase.elim id id)⟩

/-- …so it has begun, and not returned. -/
theorem root_of_holds {P : Coroutine E V → Prop} {m : ℕ → Coroutine E V} {h : ℕ} {phase : Phase}
    {c : Option ℕ} {code : Code E V} {tasks : Fin n → Created E V} {stack : List (Activation E V)}
    (hholds : HoldsCells P m ((h, .new phase c code) :: (taskCells tasks ++ stackCells h stack)))
    (hphase : phase = .running ∨ phase = .suspended) (hroot : bottom h stack = 0) :
    (m 0).phase ≠ .created ∧ (m 0).phase ≠ .finished ∧ (m 0).returnValue = none := by
  obtain ⟨phase', c', code', hread, hphase'⟩ := bottom_frame hholds.read_of_mem
  rw [hroot] at hread
  have hbegun : phase' = .running ∨ phase' = .suspended := hphase'.elim (· ▸ hphase) Or.inr
  rcases hbegun with rfl | rfl <;> simp [hread, Coroutine.new]

/-! ## Whole runs -/

section Runs

variable {root : Body E V 0} {inputs : List V} {s : Machine E V}

/-- **The coroutines run as in direct style** on the values of the events: what they have done so
far is what the direct-style program does first; whenever none of them runs, it is all the program
does on these values, and the root has returned the value the program returns, if any.  Until then
one coroutine waits for the next event, which resumes it and no other, and no coroutine runs for
ever. -/
structure BehavesLikeCalls (root : Body E V 0) (inputs : List V) (s : Machine E V) : Prop where
  inOrder : s.trace <+: (root.call.run inputs).1
  atRest : s.control = none → (s.frames 0).phase ≠ .created →
    root.call.run inputs = (s.trace, (s.frames 0).returnValue)
  returned_iff : (s.frames 0).phase = .finished ↔ (s.frames 0).returnValue.isSome
  begins : (s.frames 0).phase = .created → ∃ t, s.step .resume = some t ∧ t.control = some 0
  resumable : s.control = none → (s.frames 0).phase ≠ .created → (s.frames 0).phase ≠ .finished →
    ∃ h, (∀ v, ∃ t, s.step (.wake h v) = some t ∧ t.control = some h) ∧
      ∀ h' v, h' ≠ h → s.step (.wake h' v) = none
  comesBack : ∃ k t, (callSystem root).runFrom s (List.replicate k .tick) = some t ∧
    t.control = none

/-- The machine is at a configuration, and has done what leads there in direct style. -/
structure Simulates (root : Body E V 0) (inputs : List V) (s : Machine E V) (config : Config E V) :
    Prop where
  refines : Refines s config
  becomes : root.call.Becomes inputs s.trace config.program

/-- What the machine has done next is what the program does next. -/
theorem Simulates.follow {config : Config E V} (hs : Simulates root inputs s config)
    {result : List (Event E V) × Config E V} {t : Machine E V} (ht : Follows s t result)
    (hprogram : config.program = result.2.program.acts result.1) :
    Simulates root inputs t result.2 := by
  refine ⟨ht.refines, ?_⟩
  rw [ht.trace]
  exact (hprogram ▸ hs.becomes).acts

theorem simulates_init (root : Body E V 0) :
    Simulates root [] (callSystem root).init (.created ⟨0, root⟩) := by
  have hempty : HoldsCells (·.code = .ended) (fun _ : ℕ => (Coroutine.none : Coroutine E V)) [] :=
    ⟨nofun, List.nodup_nil, fun _ _ => rfl⟩
  refine ⟨⟨hempty.alloc List.not_mem_nil _, ?_, rfl, rfl⟩, .refl _⟩
  rintro k (_ | ⟨_, ⟨⟩⟩)
  exact Nat.one_pos

/-- **The root is resumed at its initial suspension**, and begins. -/
theorem Simulates.resume {config : Config E V} (hs : Simulates root inputs s config)
    {t : Machine E V} (hst : s.step .resume = some t) :
    ∃ config', Simulates root inputs t config' := by
  obtain ⟨⟨hcontrol, hphase⟩, hst⟩ := Option.ite_none_right_eq_some.mp hst
  have hroot := hs.refines.root
  cases config with
  | created r =>
    rw [← show r.handle = 0 from hroot, Machine.resumeHandle_created hs.refines.holds.read] at hst
    obtain rfl := Option.some.inj hst
    have hrefines : Refines ((s.emit .started).goOn r.handle Fin.elim0 r.body)
        (.running r.handle Fin.elim0 r.body []) :=
      refines_goOn r.body handles_elim0 hs.refines.holds hs.refines.fresh hs.refines.root
    have hfollows : Follows s _ ([.started], _) := ⟨hrefines, rfl⟩
    exact ⟨_, hs.follow hfollows (program_created r)⟩
  | running => cases hs.refines.control.symm.trans hcontrol
  | suspended h tasks rest stack =>
    exact absurd hphase (root_of_holds hs.refines.holds (Or.inr rfl) hroot).1
  | ended h v =>
    have hread := hs.refines.holds.read
    rw [show h = 0 from hroot] at hread
    rw [hread] at hphase
    cases hphase

/-- **An event resumes the coroutine on top of the stack**, with its value. -/
theorem Simulates.wake {config : Config E V} (hs : Simulates root inputs s config) {h : ℕ} {v : V}
    {t : Machine E V} (hst : s.step (.wake h v) = some t) :
    ∃ config', Simulates root (inputs ++ [v]) t config' := by
  rw [Machine.step] at hst
  split at hst
  · next n tasks' rest hcontrol hcode =>
    obtain ⟨tasks, stack, rfl, rfl⟩ := suspended_of_refines hs.refines hcode
    obtain rfl := Option.some.inj hst
    have hrefines := refines_goOn (rest v) rfl hs.refines.holds hs.refines.fresh hs.refines.root
    exact ⟨_, hrefines, hs.becomes.wait v⟩
  · cases hst

/-- **The running coroutine does what the program does next.** -/
theorem Simulates.tick {config : Config E V} (hs : Simulates root inputs s config)
    {t : Machine E V} (hst : s.tick = some t) : ∃ config', Simulates root inputs t config' := by
  cases config with
  | running h tasks rest stack =>
    obtain ⟨t', hst', hfollows⟩ := tick_follows hs.refines
    obtain rfl := Option.some.inj (hst'.symm.trans hst)
    exact ⟨_, hs.follow hfollows (program_next s.next h tasks rest stack)⟩
  | created | suspended | ended =>
    have hcontrol : s.control = none := hs.refines.control
    rw [Machine.tick, hcontrol] at hst
    cases hst

/-- **Every action leads from a configuration to another.** -/
theorem Simulates.step {config : Config E V} (hs : Simulates root inputs s config)
    {a : CallAction V} {t : Machine E V} (hst : s.step a = some t) :
    ∃ config', Simulates root (inputs ++ a.input.toList) t config' := by
  cases a with
  | resume => exact (List.append_nil inputs).symm ▸ hs.resume hst
  | wake h v => exact hs.wake hst
  | tick => exact (List.append_nil inputs).symm ▸ hs.tick hst

/-- **No coroutine runs for ever**: control comes back after finitely many steps. -/
theorem comesBack_of_halts (root : Body E V 0) {config : Config E V} (hconfig : Halts config) :
    ∀ s, Refines s config → ∃ k t,
      (callSystem root).runFrom s (List.replicate k .tick) = some t ∧ t.control = none := by
  induction hconfig with
  | created | suspended | ended => exact fun s hs => ⟨0, s, rfl, hs.control⟩
  | next _ ih =>
    intro s hs
    obtain ⟨t, hst, hfollows⟩ := tick_follows hs
    obtain ⟨k, u, hrun, hcontrol⟩ := ih s.next t hfollows.refines
    refine ⟨k + 1, u, ?_, hcontrol⟩
    rw [List.replicate_succ, System.runFrom_cons]
    exact (congrArg (Option.bind · _) hst).trans hrun

/-- **The root can begin** where it has not begun. -/
theorem begins_of_refines {config : Config E V} (hs : Refines s config)
    (hphase : (s.frames 0).phase = .created) :
    ∃ t, s.step .resume = some t ∧ t.control = some 0 := by
  have hroot := hs.root
  cases config with
  | created r =>
    have hread := hs.holds.read
    rw [show r.handle = 0 from hroot] at hread
    exact ⟨_, (if_pos ⟨hs.control, hphase⟩).trans (Machine.resumeHandle_created hread), rfl⟩
  | running h tasks rest stack =>
    exact absurd hphase (root_of_holds hs.holds (Or.inl rfl) hroot).1
  | suspended h tasks rest stack =>
    exact absurd hphase (root_of_holds hs.holds (Or.inr rfl) hroot).1
  | ended h v =>
    have hread := hs.holds.read
    rw [show h = 0 from hroot] at hread
    rw [hread] at hphase
    cases hphase

/-- **An event resumes the coroutine that waits for it**, and no other. -/
theorem resumable_of_suspended {h : ℕ} {tasks : Fin n → Created E V} {rest : V → Body E V n}
    {stack : List (Activation E V)} (hs : Refines s (.suspended h tasks rest stack)) :
    ∃ h, (∀ v, ∃ t, s.step (.wake h v) = some t ∧ t.control = some h) ∧
      ∀ h' v, h' ≠ h → s.step (.wake h' v) = none := by
  have hcontrol : s.control = none := hs.control
  refine ⟨h, fun v => ⟨s.goOn h (handles tasks) (rest v), ?_, rfl⟩, fun h' v hne => ?_⟩
  · simp only [Machine.step, hcontrol, hs.holds.read]
    rfl
  · rw [Machine.step]
    split
    · next hcode =>
      obtain ⟨_, _, heq, -⟩ := suspended_of_refines hs hcode
      cases heq
      exact absurd rfl hne
    · rfl

theorem Simulates.behavesLikeCalls {config : Config E V} (hs : Simulates root inputs s config) :
    BehavesLikeCalls root inputs s := by
  have hroot := hs.refines.root
  have hbegins := begins_of_refines hs.refines
  have hback := comesBack_of_halts root (halts config) s hs.refines
  cases config with
  | created r =>
    have hread := hs.refines.holds.read
    rw [show r.handle = 0 from hroot] at hread
    have hphase : (s.frames 0).phase = .created := congrArg (·.phase) hread
    refine ⟨hs.becomes.isPrefix, fun _ hne => absurd hphase hne, ?_, hbegins,
      fun _ hne => absurd hphase hne, hback⟩
    simp [hread, Coroutine.new]
  | running h tasks rest stack =>
    obtain ⟨-, hne, hnone⟩ := root_of_holds hs.refines.holds (Or.inl rfl) hroot
    have hcontrol : s.control ≠ none := by simp [hs.refines.control, Config.control]
    refine ⟨hs.becomes.isPrefix, fun h => absurd h hcontrol, iff_of_false hne ?_, hbegins,
      fun h => absurd h hcontrol, hback⟩
    simp [hnone]
  | suspended h tasks rest stack =>
    obtain ⟨-, hne, hnone⟩ := root_of_holds hs.refines.holds (Or.inr rfl) hroot
    refine ⟨hs.becomes.isPrefix, fun _ _ => ?_, iff_of_false hne ?_, hbegins,
      fun _ _ _ => resumable_of_suspended hs.refines, hback⟩
    · rw [hnone]
      exact hs.becomes.run_of_wait
    · simp [hnone]
  | ended h v =>
    have hread := hs.refines.holds.read
    rw [show h = 0 from hroot] at hread
    refine ⟨hs.becomes.isPrefix, fun _ _ => ?_, ?_, hbegins, fun _ _ hne => ?_, hback⟩
    · rw [hread]
      exact hs.becomes.run_of_ret
    · simp [hread, Coroutine.returned, Coroutine.new]
    · exact absurd (congrArg (·.phase) hread) hne

end Runs

/-- **A co_await is a call** — wherever a run has got to, whatever the tree of coroutines, and
whatever the order and the values of the events. -/
theorem behavesLikeCalls_of_run (root : Body E V 0) {actions : List (CallAction V)}
    {s : Machine E V} (hrun : (callSystem root).run actions = some s) :
    BehavesLikeCalls root (actions.filterMap CallAction.input) s := by
  have hkeep : ∀ actions s a t,
      (∃ config, Simulates root (actions.filterMap CallAction.input) s config) →
      (callSystem root).step s a = some t →
      ∃ config, Simulates root ((actions ++ [a]).filterMap CallAction.input) t config := by
    rintro actions s a t ⟨config, hs⟩ hst
    have hinput : [a].filterMap CallAction.input = a.input.toList := by cases a <;> rfl
    rw [List.filterMap_append, hinput]
    exact hs.step hst
  obtain ⟨config, hs⟩ := System.log_of_run _ ⟨_, simulates_init root⟩ hkeep hrun
  exact hs.behavesLikeCalls

/-- The coroutines of `tests/task_test.cpp`, with what they print; the innermost one first waits for
two events. -/
def test2 : Body ℕ ℕ 0 := .suspend fun c => .exec c (.suspend fun d => .exec d (.coReturn 4))

def test1 : Body ℕ ℕ 0 :=
  .exec 2 (.create test2 (.coAwait 0 fun a => .exec a (.coReturn 5)))

def exampleTask : Body ℕ ℕ 0 :=
  .exec 1 (.create test1 (.coAwait 0 fun b => .exec b (.coReturn 0)))

/-- The root is resumed, and runs until the events have come and it is at its end. -/
def exampleRun : List (CallAction ℕ) :=
  .resume :: List.replicate 7 .tick ++ .wake 2 7 :: List.replicate 2 .tick
    ++ .wake 2 8 :: List.replicate 6 .tick

theorem behavesLikeCalls_exampleTask :
    ∃ s, (callSystem exampleTask).run exampleRun = some s ∧ s.control = none ∧
      s.trace = [.started, .exec 1, .started, .exec 2, .started, .exec 7, .exec 8, .returned 4,
        .continued 4, .exec 4, .returned 5, .continued 5, .exec 5, .returned 0] ∧
      BehavesLikeCalls exampleTask [7, 8] s := by
  obtain ⟨s, hrun, hcontrol, htrace⟩ : ∃ s, (callSystem exampleTask).run exampleRun = some s ∧
      s.control = none ∧ s.trace = [.started, .exec 1, .started, .exec 2, .started, .exec 7,
        .exec 8, .returned 4, .continued 4, .exec 4, .returned 5, .continued 5, .exec 5,
        .returned 0] := ⟨_, rfl, rfl, rfl⟩
  exact ⟨s, hrun, hcontrol, htrace, behavesLikeCalls_of_run exampleTask hrun⟩

end YServer
