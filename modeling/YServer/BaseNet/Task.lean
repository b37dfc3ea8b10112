import YServer.Machinery.Runs
import Mathlib.Data.List.Perm.Basic

/-!
# BaseNet/Task — the life of one coroutine frame

A `task` owns a coroutine until it is moved from, detached or destroyed.  Who destroys the frame is
settled by one flag in the promise:

    ~task on a finished coroutine   ─▶ destroys the frame
    ~task on an unfinished one      ─▶ sets the flag, leaving the frame to `final_awaiter`
    detach                          ─▶ sets the flag, whether the coroutine has finished or not
    final_awaiter                   ─▶ destroys the frame if the flag is set, then reads the promise

Two of these go wrong, `final_awaiter` with the flag set and `detach` behind the end; and nothing
else does (`lifeCycle_iff`).
-/

namespace YServer

open Machinery

/-! ## The frame -/

/-- Where the coroutine stands: before its initial suspension is left, running, suspended in its
body, or at its final suspension. -/
inductive Phase
  | created
  | running
  | suspended
  | finished
  deriving DecidableEq, Repr

/-- A coroutine frame with the promise in it. -/
structure Frame where
  phase : Phase
  detachedFlag : Bool
  alive : Bool
  /-- How often `destroy` was called on it. -/
  destroyed : ℕ
  /-- The promise was read or written when the frame was gone. -/
  touchedDead : Bool
  deriving DecidableEq, Repr

namespace Frame

/-- `coroutine.done()`. -/
def done (f : Frame) : Bool := f.phase = .finished

/-- `coroutine.promise()`, about to be read or written. -/
def promise (f : Frame) : Frame := { f with touchedDead := f.touchedDead || !f.alive }

/-- `coroutine.destroy()`. -/
def destroy (f : Frame) : Frame := { f with alive := false, destroyed := f.destroyed + 1 }

/-- `promise().get_detached_flag().test_and_set()`. -/
def setDetachedFlag (f : Frame) : Frame := { f.promise with detachedFlag := true }

/-- `final_awaiter::await_suspend`.  The calling coroutine is read last. -/
def finalAwaiter (f : Frame) : Frame :=
  let f := f.promise
  let f := if f.detachedFlag then f.destroy else f
  f.promise

/-- `task::~task`, for a task that refers to the frame. -/
def taskDestructor (f : Frame) : Frame := if f.done then f.destroy else f.setDetachedFlag

end Frame

/-! ## The task API -/

/-- The frame, and for each task object alive whether its `coroutine_` refers to the frame. -/
structure TaskState where
  frame : Frame
  tasks : List Bool
  deriving DecidableEq, Repr

inductive TaskAction
  /-- `task::resume` of the `i`-th task. -/
  | resume (i : ℕ)
  /-- The event a suspended coroutine waits for resumes it. -/
  | wake
  /-- The body suspends. -/
  | suspend
  /-- The body runs to its end. -/
  | finish
  /-- A task is constructed from the `i`-th one. -/
  | move (i : ℕ)
  /-- `task::detach` of the `i`-th task. -/
  | detach (i : ℕ)
  /-- `task::~task` of the `i`-th task. -/
  | destroyTask (i : ℕ)
  deriving DecidableEq, Repr

namespace TaskState

/-- What an action makes of a state.  Not allowed are a running coroutine's resumption and `detach`
on a task without a coroutine. -/
def step (s : TaskState) : TaskAction → Option TaskState
  | .resume i =>
    match s.tasks[i]? with
    | none => none
    | some false => some s
    | some true =>
      if s.frame.done then some s
      else if s.frame.phase = .running then none
      else some { s with frame := { s.frame with phase := .running } }
  | .wake =>
    if s.frame.phase = .suspended then some { s with frame := { s.frame with phase := .running } }
    else none
  | .suspend =>
    if s.frame.phase = .running then some { s with frame := { s.frame with phase := .suspended } }
    else none
  | .finish =>
    if s.frame.phase = .running then
      some { s with frame := { s.frame with phase := .finished }.finalAwaiter }
    else none
  | .move i =>
    match s.tasks[i]? with
    | none => none
    | some refers => some { s with tasks := s.tasks.set i false ++ [refers] }
  | .detach i =>
    match s.tasks[i]? with
    | some true => some { frame := s.frame.setDetachedFlag, tasks := s.tasks.set i false }
    | _ => none
  | .destroyTask i =>
    match s.tasks[i]? with
    | none => none
    | some refers =>
      some {
        frame := if refers then s.frame.taskDestructor else s.frame
        tasks := s.tasks.eraseIdx i }

/-- **The frame's life cycle is right**: destroyed at most once, not touched afterwards, and not
left behind at the end with no task to destroy it. -/
structure LifeCycle (s : TaskState) : Prop where
  once : s.frame.destroyed ≤ 1
  untouched : s.frame.touchedDead = false
  noLeak : ¬ (s.frame.phase = .finished ∧ true ∉ s.tasks ∧ s.frame.alive = true)

end TaskState

/-- One coroutine, from the return of its `get_return_object` on. -/
def taskSystem : System TaskState TaskAction where
  init := ⟨⟨.created, false, true, 0, false⟩, [true]⟩
  step := TaskState.step

namespace TaskState

/-- What an action can do to a state. -/
inductive Stepped (s : TaskState) : TaskAction → TaskState → Prop
  | idle {i : ℕ} (hidle : s.tasks[i]? = some false ∨ s.frame.done = true) : Stepped s (.resume i) s
  | resume {i : ℕ} (hi : s.tasks[i]? = some true) (hphase : s.frame.phase ≠ .finished) :
    Stepped s (.resume i) { s with frame := { s.frame with phase := .running } }
  | wake (hphase : s.frame.phase = .suspended) :
    Stepped s .wake { s with frame := { s.frame with phase := .running } }
  | suspend (hphase : s.frame.phase = .running) :
    Stepped s .suspend { s with frame := { s.frame with phase := .suspended } }
  | finish (hphase : s.frame.phase = .running) :
    Stepped s .finish { s with frame := { s.frame with phase := .finished }.finalAwaiter }
  | move {i : ℕ} {refers : Bool} (hi : s.tasks[i]? = some refers) :
    Stepped s (.move i) { s with tasks := s.tasks.set i false ++ [refers] }
  | detach {i : ℕ} (hi : s.tasks[i]? = some true) :
    Stepped s (.detach i) { frame := s.frame.setDetachedFlag, tasks := s.tasks.set i false }
  | destroyTask {i : ℕ} {refers : Bool} (hi : s.tasks[i]? = some refers) :
    Stepped s (.destroyTask i)
      { frame := if refers then s.frame.taskDestructor else s.frame, tasks := s.tasks.eraseIdx i }

theorem stepped_of_step {s t : TaskState} {a : TaskAction} (hst : s.step a = some t) :
    s.Stepped a t := by
  cases a with
  | resume i =>
    rw [step] at hst
    split at hst
    case h_1 => cases hst
    case h_2 hi => exact Option.some.inj hst ▸ .idle (Or.inl hi)
    case h_3 hi =>
      by_cases hdone : s.frame.done = true
      · rw [if_pos hdone] at hst
        exact Option.some.inj hst ▸ .idle (Or.inr hdone)
      · rw [if_neg hdone] at hst
        obtain ⟨-, hst⟩ := Option.ite_none_left_eq_some.mp hst
        exact Option.some.inj hst ▸ .resume hi (by simpa [Frame.done] using hdone)
  | wake =>
    obtain ⟨hphase, hst⟩ := Option.ite_none_right_eq_some.mp hst
    exact Option.some.inj hst ▸ .wake hphase
  | suspend =>
    obtain ⟨hphase, hst⟩ := Option.ite_none_right_eq_some.mp hst
    exact Option.some.inj hst ▸ .suspend hphase
  | finish =>
    obtain ⟨hphase, hst⟩ := Option.ite_none_right_eq_some.mp hst
    exact Option.some.inj hst ▸ .finish hphase
  | move i =>
    rw [step] at hst
    split at hst
    · cases hst
    · next hi => exact Option.some.inj hst ▸ .move hi
  | detach i =>
    rw [step] at hst
    split at hst
    · next hi => exact Option.some.inj hst ▸ .detach hi
    · cases hst
  | destroyTask i =>
    rw [step] at hst
    split at hst
    · cases hst
    · next hi => exact Option.some.inj hst ▸ .destroyTask hi

end TaskState

/-! ## What the operations do to the frame -/

namespace Frame

variable {f : Frame}

theorem promise_of_alive (h : f.alive = true) : f.promise = f := by
  have htouched : (f.touchedDead || !f.alive) = f.touchedDead := by
    rw [h, Bool.not_true, Bool.or_false]
  rw [promise, htouched]

theorem setDetachedFlag_of_alive (h : f.alive = true) :
    f.setDetachedFlag = { f with detachedFlag := true } := by
  rw [setDetachedFlag, promise_of_alive h]

/-- **Without the flag the final awaiter leaves the frame as it is.** -/
theorem finalAwaiter_of_attached (h : f.alive = true) (hflag : f.detachedFlag = false) :
    f.finalAwaiter = f := by
  simp only [finalAwaiter, promise_of_alive h, hflag, Bool.false_eq_true, if_false]

/-- **With the flag it reads the promise it has destroyed.** -/
theorem touchedDead_finalAwaiter (hflag : f.detachedFlag = true) :
    f.finalAwaiter.touchedDead = true := by
  simp [finalAwaiter, promise, destroy, hflag]

end Frame

/-! ## The invariant -/

/-- Who answers for the frame: the one task that refers to it; or, while the coroutine runs on, the
final awaiter; or nobody, once it is destroyed. -/
inductive Answerable (f : Frame) : ℕ → Prop
  | task : f.alive = true → f.detachedFlag = false → Answerable f 1
  | finalAwaiter : f.alive = true → f.detachedFlag = true → f.phase ≠ .finished → Answerable f 0
  | nobody : f.alive = false → f.phase = .finished → Answerable f 0

/-- The invariant of the runs that keep the life cycle right. -/
structure TaskState.Sound (s : TaskState) : Prop where
  destroyed_eq : s.frame.destroyed = if s.frame.alive then 0 else 1
  untouched : s.frame.touchedDead = false
  answerable : Answerable s.frame (s.tasks.count true)

/-- The condition on one action: the final awaiter finds the flag clear, and `detach` an unfinished
coroutine. -/
def TaskState.Proper (s : TaskState) : TaskAction → Prop
  | .finish => s.frame.detachedFlag = false
  | .detach _ => s.frame.phase ≠ .finished
  | _ => True

namespace TaskState

variable {s t : TaskState}

theorem Sound.lifeCycle (h : s.Sound) : s.LifeCycle := by
  refine ⟨?_, h.untouched, ?_⟩
  · rw [h.destroyed_eq]
    split <;> omega
  · rintro ⟨hfin, hnone, halive⟩
    have hans := h.answerable
    rw [List.count_eq_zero.mpr hnone] at hans
    cases hans with
    | finalAwaiter _ _ hne => exact hne hfin
    | nobody hdead _ => rw [hdead] at halive; cases halive

/-! ### Counting the tasks that refer to the frame -/

section Count

variable {tasks : List Bool} {i : ℕ} {refers : Bool}

/-- A task that is destroyed takes its own reference away… -/
theorem count_eraseIdx (h : tasks[i]? = some refers) :
    (tasks.eraseIdx i).count true + refers.toNat = tasks.count true := by
  obtain ⟨hi, rfl⟩ := List.getElem?_eq_some_iff.mp h
  rw [← (List.getElem_cons_eraseIdx_perm hi).count_eq, List.count_cons]
  cases tasks[i] <;> rfl

/-- …and so does one whose `coroutine_` becomes null. -/
theorem count_set_false (h : tasks[i]? = some refers) :
    (tasks.set i false).count true + refers.toNat = tasks.count true := by
  obtain ⟨hi, -⟩ := List.getElem?_eq_some_iff.mp h
  rw [(List.set_perm_cons_eraseIdx hi false).count_eq, List.count_cons_of_ne (by decide),
    count_eraseIdx h]

end Count

/-! ### Who answers for the frame -/

/-- A task that refers to the frame is the only one, and the flag is clear. -/
theorem Sound.of_refers (h : s.Sound) {i : ℕ} (hi : s.tasks[i]? = some true) :
    s.frame.alive = true ∧ s.frame.detachedFlag = false ∧ s.tasks.count true = 1 := by
  have hpos : 0 < s.tasks.count true := List.count_pos_iff.mpr (List.mem_of_getElem? hi)
  have hans := h.answerable
  cases hn : s.tasks.count true <;> rw [hn] at hans hpos <;> cases hans
  · exact absurd hpos (Nat.lt_irrefl 0)
  · exact absurd hpos (Nat.lt_irrefl 0)
  case task halive hflag => exact ⟨halive, hflag, rfl⟩

/-- Before the end, with the flag clear, there is such a task. -/
theorem Sound.of_attached (h : s.Sound) (hphase : s.frame.phase ≠ .finished)
    (hflag : s.frame.detachedFlag = false) : s.frame.alive = true ∧ s.tasks.count true = 1 := by
  have hans := h.answerable
  cases hn : s.tasks.count true <;> rw [hn] at hans <;> cases hans
  case finalAwaiter _ hset _ => rw [hflag] at hset; cases hset
  case nobody _ hfin => exact absurd hfin hphase
  case task halive _ => exact ⟨halive, rfl⟩

/-! ### One action -/

/-- A frame that moves on to another phase than the last is answered for as before. -/
theorem Sound.of_phase (h : s.Sound) (hphase : s.frame.phase ≠ .finished) {p : Phase}
    (hp : p ≠ .finished) : Sound { s with frame := { s.frame with phase := p } } where
  destroyed_eq := h.destroyed_eq
  untouched := h.untouched
  answerable := by
    have hans := h.answerable
    change Answerable _ (s.tasks.count true)
    cases hn : s.tasks.count true <;> rw [hn] at hans <;> cases hans
    case finalAwaiter halive hflag _ => exact .finalAwaiter halive hflag hp
    case nobody _ hfin => exact absurd hfin hphase
    case task halive hflag => exact .task halive hflag

/-- **A coroutine that ends with the flag clear stays for its task to destroy.** -/
theorem Sound.finish (h : s.Sound) (hphase : s.frame.phase ≠ .finished)
    (hflag : s.frame.detachedFlag = false) :
    Sound { s with frame := { s.frame with phase := .finished }.finalAwaiter } := by
  obtain ⟨halive, hone⟩ := h.of_attached hphase hflag
  have hfinal : Frame.finalAwaiter { s.frame with phase := .finished }
      = { s.frame with phase := .finished } := Frame.finalAwaiter_of_attached halive hflag
  rw [hfinal]
  exact ⟨h.destroyed_eq, h.untouched, by rw [hone]; exact .task halive hflag⟩

/-- **A moved-from task hands its reference on.** -/
theorem Sound.move (h : s.Sound) {i : ℕ} {refers : Bool} (hi : s.tasks[i]? = some refers) :
    Sound { s with tasks := s.tasks.set i false ++ [refers] } := by
  have hcount : (s.tasks.set i false ++ [refers]).count true = s.tasks.count true := by
    rw [← count_set_false hi, List.count_append]
    cases refers <;> rfl
  exact ⟨h.destroyed_eq, h.untouched, by rw [hcount]; exact h.answerable⟩

/-- What `detach` leaves to the final awaiter, or to nobody. -/
theorem Sound.detached (h : s.Sound) {i : ℕ} (hi : s.tasks[i]? = some true) :
    s.frame.setDetachedFlag = { s.frame with detachedFlag := true } ∧ s.frame.alive = true ∧
      (s.tasks.set i false).count true = 0 := by
  obtain ⟨halive, -, hone⟩ := h.of_refers hi
  have hcount := count_set_false hi
  rw [hone] at hcount
  exact ⟨Frame.setDetachedFlag_of_alive halive, halive, Nat.succ.inj hcount⟩

/-- **A task that is destroyed destroys an ended coroutine's frame, and detaches another's.** -/
theorem Sound.destroyTask (h : s.Sound) {i : ℕ} (hi : s.tasks[i]? = some true) :
    Sound { frame := s.frame.taskDestructor, tasks := s.tasks.eraseIdx i } := by
  obtain ⟨halive, -, hone⟩ := h.of_refers hi
  have hcount := count_eraseIdx hi
  rw [hone] at hcount
  have hnone : (s.tasks.eraseIdx i).count true = 0 := Nat.succ.inj hcount
  rw [Frame.taskDestructor]
  split
  · next hdone =>
    have hzero : s.frame.destroyed = 0 := by rw [h.destroyed_eq, if_pos halive]
    have hfin : s.frame.phase = .finished := by simpa [Frame.done] using hdone
    exact ⟨by rw [Frame.destroy, hzero]; rfl, h.untouched, by rw [hnone]; exact .nobody rfl hfin⟩
  · next hdone =>
    have hphase : s.frame.phase ≠ .finished := by simpa [Frame.done] using hdone
    rw [Frame.setDetachedFlag_of_alive halive]
    exact ⟨h.destroyed_eq, h.untouched, by rw [hnone]; exact .finalAwaiter halive rfl hphase⟩

/-- A task without a coroutine leaves no trace. -/
theorem Sound.destroyEmpty (h : s.Sound) {i : ℕ} (hi : s.tasks[i]? = some false) :
    Sound { s with tasks := s.tasks.eraseIdx i } := by
  have hcount : (s.tasks.eraseIdx i).count true = s.tasks.count true := count_eraseIdx hi
  exact ⟨h.destroyed_eq, h.untouched, by rw [hcount]; exact h.answerable⟩

/-- **An action that meets the condition keeps the invariant.** -/
theorem Sound.step (h : s.Sound) {a : TaskAction} (hst : s.step a = some t) (ha : s.Proper a) :
    t.Sound := by
  cases stepped_of_step hst with
  | idle hidle => exact h
  | resume hi hphase => exact h.of_phase hphase (by decide)
  | wake hphase => exact h.of_phase (by rw [hphase]; decide) (by decide)
  | suspend hphase => exact h.of_phase (by rw [hphase]; decide) (by decide)
  | finish hphase => exact h.finish (by rw [hphase]; decide) ha
  | move hi => exact h.move hi
  | detach hi =>
    obtain ⟨hflag, halive, hnone⟩ := h.detached hi
    rw [hflag]
    exact ⟨h.destroyed_eq, h.untouched, by rw [hnone]; exact .finalAwaiter halive rfl ha⟩
  | @destroyTask i refers hi =>
    cases refers with
    | true => exact h.destroyTask hi
    | false => exact h.destroyEmpty hi

/-- **An action that misses it leaves the life cycle behind**: the final awaiter touches a dead
promise, or `detach` leaves a finished frame to nobody. -/
theorem Sound.not_lifeCycle (h : s.Sound) {a : TaskAction} (hst : s.step a = some t)
    (ha : ¬ s.Proper a) : ¬ t.LifeCycle := by
  intro hlife
  cases stepped_of_step hst with
  | finish hphase =>
    have hflag : s.frame.detachedFlag = true := Bool.not_eq_false _ ▸ ha
    have htouched : Frame.touchedDead { s.frame with phase := .finished }.finalAwaiter = true :=
      Frame.touchedDead_finalAwaiter hflag
    cases htouched.symm.trans hlife.untouched
  | detach hi =>
    obtain ⟨hflag, halive, hnone⟩ := h.detached hi
    refine hlife.noLeak ?_
    rw [hflag]
    exact ⟨not_not.mp ha, List.count_eq_zero.mp hnone, halive⟩
  | idle | resume | wake | suspend | move | destroyTask => exact ha trivial

end TaskState

/-! ## Whole runs -/

theorem sound_init : TaskState.Sound taskSystem.init :=
  ⟨rfl, rfl, .task rfl rfl⟩

/-- **The life cycle is right throughout a run exactly when the run never ends a detached coroutine
and never detaches an ended one.** -/
theorem lifeCycle_iff (run : List TaskAction) :
    (∀ s ∈ taskSystem.visited run, s.LifeCycle) ↔ ∀ m ∈ taskSystem.moves run, m.src.Proper m.act :=
  System.forall_visited_iff_moves TaskState.Sound sound_init (fun _ hs => hs.lifeCycle)
    (fun _ _ _ hs hst ha => hs.step hst ha) (fun _ _ _ hs hst ha => hs.not_lifeCycle hst ha) run

/-- What `http_response::send` does with its `send_task`, up to the coroutine's end. -/
def sendTaskRun : List TaskAction :=
  [.resume 0, .suspend, .detach 0, .destroyTask 0, .wake, .finish]

/-- **At its end the promise is read in a frame already destroyed.** -/
theorem not_lifeCycle_sendTaskRun : ¬ ∀ s ∈ taskSystem.visited sendTaskRun, s.LifeCycle := by
  intro h
  have hend := h ⟨⟨.finished, true, false, 1, true⟩, []⟩ (by decide)
  exact absurd hend.untouched (by decide)

end YServer
