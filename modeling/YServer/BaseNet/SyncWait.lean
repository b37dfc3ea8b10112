import YServer.Machinery.Runs
import Mathlib.Data.List.Basic
import Mathlib.Logic.Function.Basic

/-!
# BaseNet/SyncWait — waiting for tasks on a flag in a coroutine frame

`sync_wait` awaits a task in a coroutine of its own and waits, on the calling thread, for the flag
in that coroutine's frame; then it takes the value and destroys the frame.  The task may end on any
thread, and whoever ends it runs `final_awaiter`:

    caller        co_await task ─▸ flag? ─▸ sleep ┄┄▸ flag? ─▸ take the value ─▸ destroy the frame
    final thread              co_return v ─▸ test_and_set ─▸ notify_all

Nobody sleeps through the notification, so `sync_wait_all` comes back with the values of all tasks,
in their order (`syncWaitAll_of_run`).  But the flag the notification is for may be gone by then,
with its frame: exactly where the caller sees the flag between the two calls (`noFault_exactFor`).
The tasks are awaited here for the first time.
-/

namespace YServer

open Machinery

/-! ## The frame and the caller -/

/-- Where the coroutine of a `sync_wait` stands. -/
inductive SyncPoint
  | absent
  /-- In `co_await task`. -/
  | awaiting
  /-- It has returned the value, and `final_awaiter` is about to set the flag… -/
  | setting
  /-- …and to notify. -/
  | notifying
  | suspended
  deriving DecidableEq, Repr

/-- The coroutine and what lies in its frame. -/
structure SyncFrame (T : Type) where
  point : SyncPoint
  alive : Bool
  /-- `atomic_flag_`. -/
  flag : Bool
  /-- `return_value_`. -/
  value : Option T
  deriving DecidableEq, Repr

/-- Where the calling thread is. -/
inductive WaitPoint
  /-- At the head of the loop of `sync_wait_all`. -/
  | calling
  /-- In the task, which `co_await` has started. -/
  | inTask
  /-- In `atomic_flag::wait`: about to look at the flag, and asleep. -/
  | testing
  | sleeping
  /-- About to take the value and to destroy the frame. -/
  | reading
  | returned
  deriving DecidableEq, Repr

/-- `sync_wait_all` at the task it waits for.  `fault` is a flag that was touched when its frame was
gone. -/
structure SyncState (T : Type) where
  task : ℕ
  point : WaitPoint
  frames : ℕ → SyncFrame T
  results : List T
  fault : Bool

inductive SyncAction
  /-- The calling thread takes its next step. -/
  | go
  /-- The task ends, on some thread. -/
  | finish (k : ℕ)
  /-- `test_and_set`, then `notify_all`. -/
  | set (k : ℕ)
  | notify (k : ℕ)
  /-- A spurious wake-up. -/
  | wake
  deriving DecidableEq, Repr

namespace SyncState

variable {T : Type} (s : SyncState T)

def setFrame (k : ℕ) (frame : SyncFrame T) : ℕ → SyncFrame T := Function.update s.frames k frame

/-- `sync_wait_all`, `sync_wait` and `wait`, one step. -/
def go (n : ℕ) : Option (SyncState T) :=
  match s.point with
  | .calling =>
    if s.task < n then
      some { s with frames := s.setFrame s.task ⟨.awaiting, true, false, none⟩, point := .inTask }
    else some { s with point := .returned }
  | .inTask => some { s with point := .testing }
  | .testing => some { s with point := if (s.frames s.task).flag then .reading else .sleeping }
  | .reading =>
    match (s.frames s.task).value with
    | some v =>
      some { s with
        task := s.task + 1
        point := .calling
        frames := s.setFrame s.task { s.frames s.task with alive := false }
        results := s.results ++ [v] }
    | none => some { s with fault := true }
  | .sleeping | .returned => none

/-- The tasks end with the given values. -/
def step (values : List T) : SyncAction → Option (SyncState T)
  | .go => s.go values.length
  | .finish k =>
    if (s.frames k).point = .awaiting then
      some { s with
        frames := s.setFrame k { s.frames k with point := .setting, value := values[k]? } }
    else none
  | .set k =>
    if (s.frames k).point = .setting then
      some { s with
        frames := s.setFrame k { s.frames k with point := .notifying, flag := true }
        fault := s.fault || !(s.frames k).alive }
    else none
  | .notify k =>
    if (s.frames k).point = .notifying then
      some { s with
        frames := s.setFrame k { s.frames k with point := .suspended }
        point := if s.task = k ∧ s.point = .sleeping then .testing else s.point
        fault := s.fault || !(s.frames k).alive }
    else none
  | .wake => if s.point = .sleeping then some { s with point := .testing } else none

/-- **All tasks have been waited for**, and their values are returned in order. -/
structure Done (values : List T) : Prop where
  returned : s.point = .returned
  results : s.results = values

/-- The caller destroys a frame only when its coroutine is suspended at the end. -/
def FrameAtRest : SyncAction → Prop
  | .go => s.point = .reading → (s.frames s.task).point = .suspended
  | _ => True

end SyncState

/-- All steps but spurious wake-ups. -/
@[simp] def SyncAction.Own : SyncAction → Prop
  | .wake => False
  | _ => True

/-- `sync_wait_all` on tasks that end with these values. -/
def syncSystem {T : Type} (values : List T) : System (SyncState T) SyncAction where
  init := ⟨0, .calling, fun _ => ⟨.absent, false, false, none⟩, [], false⟩
  step s := s.step values

/-! ## The invariant -/

/-- The caller has begun a `sync_wait` and not finished it. -/
@[simp] def WaitPoint.Waits : WaitPoint → Prop
  | .inTask | .testing | .sleeping | .reading => True
  | _ => False

/-- What is in the frame of a task that ends with `v`, while the frame is there. -/
structure SyncFrame.Live {T : Type} (v : T) (frame : SyncFrame T) : Prop where
  alive : frame.alive
  started : frame.point ≠ .absent
  flag : frame.flag ↔ frame.point = .notifying ∨ frame.point = .suspended
  value : frame.point ≠ .awaiting → frame.value = some v

namespace SyncState

variable {T : Type} {values : List T} {s t : SyncState T}

/-- **The frames before, at and after the task that is waited for.** -/
structure Sound (values : List T) (s : SyncState T) : Prop where
  le : s.task ≤ values.length
  results : s.results = values.take s.task
  returned : s.point = .returned → s.task = values.length
  before : ∀ j < s.task, (s.frames j).point = .notifying ∨ (s.frames j).point = .suspended
  current : s.point.Waits → ∃ v, values[s.task]? = some v ∧ (s.frames s.task).Live v
  idle : ¬ s.point.Waits → (s.frames s.task).point = .absent
  after : ∀ j, s.task < j → (s.frames j).point = .absent
  reading : s.point = .reading → (s.frames s.task).flag
  sleeping : s.point = .sleeping → (s.frames s.task).point ≠ .suspended

theorem sound_init (values : List T) : (syncSystem values).init.Sound values where
  le := Nat.zero_le _
  results := rfl
  returned h := by cases h
  before j h := absurd h (Nat.not_lt_zero j)
  current h := h.elim
  idle _ := rfl
  after _ _ := rfl
  reading h := by cases h
  sleeping h := by cases h

/-! ## The steps -/

/-- What a step of the caller does. -/
inductive Goes (values : List T) (s : SyncState T) : SyncState T → Prop
  | call (h : s.point = .calling) (hlt : s.task < values.length) : Goes values s { s with
      frames := s.setFrame s.task ⟨.awaiting, true, false, none⟩
      point := .inTask }
  | return (h : s.point = .calling) (hge : values.length ≤ s.task) :
    Goes values s { s with point := .returned }
  | leave (h : s.point = .inTask) : Goes values s { s with point := .testing }
  | see (h : s.point = .testing) (hflag : (s.frames s.task).flag) :
    Goes values s { s with point := .reading }
  | sleep (h : s.point = .testing) (hflag : ¬ (s.frames s.task).flag) :
    Goes values s { s with point := .sleeping }
  | take (h : s.point = .reading) (v : T) (hv : (s.frames s.task).value = some v) :
    Goes values s { s with
      task := s.task + 1
      point := .calling
      frames := s.setFrame s.task { s.frames s.task with alive := false }
      results := s.results ++ [v] }
  | fault (h : s.point = .reading) (hv : (s.frames s.task).value = none) :
    Goes values s { s with fault := true }

theorem goes_of_go (h : s.go values.length = some t) : s.Goes values t := by
  cases hpoint : s.point with
  | calling =>
    simp only [go, hpoint] at h
    split at h <;> obtain rfl := Option.some.inj h
    case isTrue hlt => exact .call hpoint hlt
    case isFalse hge => exact .return hpoint (Nat.le_of_not_lt hge)
  | inTask =>
    simp only [go, hpoint, Option.some.injEq] at h
    exact h ▸ .leave hpoint
  | testing =>
    simp only [go, hpoint, Option.some.injEq] at h
    subst h
    by_cases hflag : (s.frames s.task).flag
    · rw [if_pos hflag]
      exact .see hpoint hflag
    · rw [if_neg hflag]
      exact .sleep hpoint hflag
  | reading =>
    simp only [go, hpoint] at h
    split at h <;> obtain rfl := Option.some.inj h
    case h_1 v hv => exact .take hpoint v hv
    case h_2 hv =>
      rw [← hpoint]
      exact .fault hpoint hv
  | sleeping => simp only [go, hpoint, reduceCtorEq] at h
  | returned => simp only [go, hpoint, reduceCtorEq] at h

/-- The coroutine of the task that is waited for, or of one before, takes a step. -/
theorem Sound.cases_point (h : s.Sound values) {k : ℕ} (hstarted : (s.frames k).point ≠ .absent) :
    k < s.task ∨ k = s.task ∧ s.point.Waits := by
  rcases lt_trichotomy k s.task with hlt | rfl | hgt
  · exact Or.inl hlt
  · by_cases hwaits : s.point.Waits
    · exact Or.inr ⟨rfl, hwaits⟩
    · exact absurd (h.idle hwaits) hstarted
  · exact absurd (h.after k hgt) hstarted

/-- The caller goes on in a `sync_wait`. -/
theorem Sound.goOn (h : s.Sound values) (hwaits : s.point.Waits) {point : WaitPoint}
    (hpoint : point.Waits) (hreading : point = .reading → (s.frames s.task).flag)
    (hsleeping : point = .sleeping → (s.frames s.task).point ≠ .suspended) :
    Sound values { s with point } where
  le := h.le
  results := h.results
  returned heq := by
    obtain rfl : point = .returned := heq
    exact hpoint.elim
  before := h.before
  current _ := h.current hwaits
  idle hnot := absurd hpoint hnot
  after := h.after
  reading := hreading
  sleeping := hsleeping

@[simp] theorem setFrame_self (k : ℕ) (frame : SyncFrame T) : s.setFrame k frame k = frame :=
  Function.update_self ..

theorem setFrame_of_ne {j k : ℕ} (h : j ≠ k) (frame : SyncFrame T) :
    s.setFrame k frame j = s.frames j := Function.update_of_ne h _ _

/-- The coroutine that is waited for goes on. -/
theorem Sound.setFrame_current (h : s.Sound values) (hwaits : s.point.Waits) {frame : SyncFrame T}
    {fault : Bool} (hlive : ∀ v, values[s.task]? = some v → (s.frames s.task).Live v → frame.Live v)
    (hreading : s.point = .reading → frame.flag)
    (hsleeping : s.point = .sleeping → frame.point ≠ .suspended) :
    Sound values { s with frames := s.setFrame s.task frame, fault } where
  le := h.le
  results := h.results
  returned := h.returned
  before j (hj : j < s.task) := by
    simpa only [setFrame_of_ne (Nat.ne_of_lt hj)] using h.before j hj
  current _ := by
    obtain ⟨v, hv, hframe⟩ := h.current hwaits
    exact ⟨v, hv, by simpa only [setFrame_self] using hlive v hv hframe⟩
  idle hnot := absurd hwaits hnot
  after j (hj : s.task < j) := by
    simpa only [setFrame_of_ne (Nat.ne_of_gt hj)] using h.after j hj
  reading hr := by simpa only [setFrame_self] using hreading hr
  sleeping hs := by simpa only [setFrame_self] using hsleeping hs

/-- A coroutine that nobody waits for any more notifies. -/
theorem Sound.setFrame_before (h : s.Sound values) {k : ℕ} (hk : k < s.task) {frame : SyncFrame T}
    {fault : Bool} (hframe : frame.point = .suspended) :
    Sound values { s with frames := s.setFrame k frame, fault } := by
  have hcurrent : s.setFrame k frame s.task = s.frames s.task := setFrame_of_ne (Nat.ne_of_gt hk) _
  refine ⟨h.le, h.results, h.returned, fun j (hj : j < s.task) => ?_, fun hwaits => ?_,
    fun hnot => ?_, fun j (hj : s.task < j) => ?_, fun hr => ?_, fun hs => ?_⟩
  · rcases eq_or_ne j k with rfl | hne
    · exact Or.inr (by simpa only [setFrame_self] using hframe)
    · simpa only [setFrame_of_ne hne] using h.before j hj
  · simpa only [hcurrent] using h.current hwaits
  · simpa only [hcurrent] using h.idle hnot
  · simpa only [setFrame_of_ne (Nat.ne_of_gt (hk.trans hj))] using h.after j hj
  · simpa only [hcurrent] using h.reading hr
  · simpa only [hcurrent] using h.sleeping hs

/-- **The value is taken**, and the next task's turn comes. -/
theorem Sound.take (h : s.Sound values) (hpoint : s.point = .reading) {v : T}
    (hv : (s.frames s.task).value = some v) : Sound values { s with
      task := s.task + 1
      point := .calling
      frames := s.setFrame s.task { s.frames s.task with alive := false }
      results := s.results ++ [v] } := by
  obtain ⟨w, hw, hlive⟩ := h.current (by simp [hpoint])
  have hlt : s.task < values.length := (List.getElem?_eq_some_iff.mp hw).1
  -- the flag is set behind the value
  have hfinal := hlive.flag.mp (h.reading hpoint)
  have hvalue := hlive.value (by rcases hfinal with heq | heq <;> simp [heq])
  obtain rfl : v = w := Option.some.inj (hv.symm.trans hvalue)
  refine ⟨hlt, ?_, fun heq => (by cases heq), fun j (hj : j < s.task + 1) => ?_,
    fun hwaits => hwaits.elim, fun _ => ?_, fun j (hj : s.task + 1 < j) => ?_,
    fun heq => (by cases heq), fun heq => (by cases heq)⟩
  · rw [List.take_add_one, hw, h.results]
    rfl
  · rcases Nat.lt_succ_iff_lt_or_eq.mp hj with hlt | rfl
    · simpa only [setFrame_of_ne (Nat.ne_of_lt hlt)] using h.before j hlt
    · simpa only [setFrame_self] using hfinal
  · simpa only [setFrame_of_ne (Nat.succ_ne_self _)] using h.after _ (Nat.lt_succ_self _)
  · have hj := Nat.lt_of_succ_lt hj
    simpa only [setFrame_of_ne (Nat.ne_of_gt hj)] using h.after j hj

theorem sound_of_go (h : s.Sound values) (hstep : s.go values.length = some t) :
    t.Sound values := by
  cases goes_of_go hstep with
  | call hpoint hlt =>
    refine ⟨h.le, h.results, fun heq => (by cases heq), fun j (hj : j < s.task) => ?_, fun _ => ?_,
      fun hnot => absurd trivial hnot, fun j (hj : s.task < j) => ?_, fun heq => (by cases heq),
      fun heq => (by cases heq)⟩
    · simpa only [setFrame_of_ne (Nat.ne_of_lt hj)] using h.before j hj
    · refine ⟨values[s.task], List.getElem?_eq_getElem hlt, ?_⟩
      simp only [setFrame_self]
      constructor <;> simp
    · simpa only [setFrame_of_ne (Nat.ne_of_gt hj)] using h.after j hj
  | «return» hpoint hge =>
    have hidle := h.idle (by simp [hpoint])
    exact ⟨h.le, h.results, fun _ => Nat.le_antisymm h.le hge, h.before, fun hwaits => hwaits.elim,
      fun _ => hidle, h.after, fun heq => (by cases heq), fun heq => (by cases heq)⟩
  | leave hpoint =>
    exact h.goOn (by simp [hpoint]) trivial (fun heq => (by cases heq)) fun heq => (by cases heq)
  | see hpoint hflag =>
    exact h.goOn (by simp [hpoint]) trivial (fun _ => hflag) fun heq => (by cases heq)
  | sleep hpoint hflag =>
    have hwaits : s.point.Waits := by simp [hpoint]
    obtain ⟨v, -, hlive⟩ := h.current hwaits
    exact h.goOn hwaits trivial (fun heq => (by cases heq))
      fun _ heq => hflag (hlive.flag.mpr (Or.inr heq))
  | take hpoint v hv => exact h.take hpoint hv
  | fault hpoint hv =>
    obtain ⟨v, -, hlive⟩ := h.current (by simp [hpoint])
    have hfinal := hlive.flag.mp (h.reading hpoint)
    have hvalue := hlive.value (by rcases hfinal with heq | heq <;> simp [heq])
    cases hv.symm.trans hvalue

/-- A coroutine that has not set its flag is the one that is waited for. -/
theorem Sound.eq_task (h : s.Sound values) {k : ℕ}
    (hpoint : (s.frames k).point = .awaiting ∨ (s.frames k).point = .setting) :
    k = s.task ∧ s.point.Waits := by
  have hstarted : (s.frames k).point ≠ .absent := by rcases hpoint with heq | heq <;> simp [heq]
  refine (h.cases_point hstarted).resolve_left fun hlt => ?_
  rcases h.before k hlt with hfinal | hfinal <;> simp [hfinal] at hpoint

theorem sound_of_finish (h : s.Sound values) {k : ℕ} (hpoint : (s.frames k).point = .awaiting) :
    Sound values { s with
      frames := s.setFrame k { s.frames k with point := .setting, value := values[k]? } } := by
  obtain ⟨rfl, hwaits⟩ := h.eq_task (Or.inl hpoint)
  refine h.setFrame_current hwaits (fun v hv hlive => ?_) h.reading fun _ => by simp
  exact ⟨hlive.alive, by simp, by simpa [hpoint] using hlive.flag, fun _ => hv⟩

theorem sound_of_set (h : s.Sound values) {k : ℕ} (hpoint : (s.frames k).point = .setting)
    (fault : Bool) : Sound values { s with
      frames := s.setFrame k { s.frames k with point := .notifying, flag := true }
      fault } := by
  obtain ⟨rfl, hwaits⟩ := h.eq_task (Or.inr hpoint)
  refine h.setFrame_current hwaits (fun v _ hlive => ?_) (fun _ => rfl) fun _ => by simp
  exact ⟨hlive.alive, by simp, by simp, fun _ => hlive.value (by simp [hpoint])⟩

/-- **The notification wakes the caller** if it sleeps for this flag. -/
theorem sound_of_notify (h : s.Sound values) {k : ℕ} (hpoint : (s.frames k).point = .notifying)
    (fault : Bool) : Sound values { s with
      frames := s.setFrame k { s.frames k with point := .suspended }
      point := if s.task = k ∧ s.point = .sleeping then .testing else s.point
      fault } := by
  rcases h.cases_point (k := k) (by simp [hpoint]) with hlt | ⟨rfl, hwaits⟩
  · rw [if_neg fun heq => (Nat.ne_of_gt hlt) heq.1]
    exact h.setFrame_before hlt rfl
  have hlive : ∀ v, values[s.task]? = some v → (s.frames s.task).Live v →
      SyncFrame.Live v { s.frames s.task with point := .suspended } := fun v _ hlive =>
    ⟨hlive.alive, by simp, by simpa [hpoint] using hlive.flag,
      fun _ => hlive.value (by simp [hpoint])⟩
  by_cases hsleeping : s.point = .sleeping
  · rw [if_pos ⟨rfl, hsleeping⟩]
    have hawake : Sound values { s with point := .testing } :=
      h.goOn hwaits trivial (fun heq => (by cases heq)) fun heq => (by cases heq)
    exact hawake.setFrame_current trivial hlive (fun heq => (by cases heq))
      fun heq => (by cases heq)
  · rw [if_neg fun heq => hsleeping heq.2]
    exact h.setFrame_current hwaits hlive h.reading fun heq => absurd heq hsleeping

/-- **Every step keeps it.** -/
theorem sound_of_step {a : SyncAction} (h : s.Sound values) (hstep : s.step values a = some t) :
    t.Sound values := by
  cases a with
  | go => exact sound_of_go h hstep
  | finish k =>
    obtain ⟨hpoint, heq⟩ := Option.ite_none_right_eq_some.mp hstep
    exact Option.some.inj heq ▸ sound_of_finish h hpoint
  | set k =>
    obtain ⟨hpoint, heq⟩ := Option.ite_none_right_eq_some.mp hstep
    exact Option.some.inj heq ▸ sound_of_set h hpoint _
  | notify k =>
    obtain ⟨hpoint, heq⟩ := Option.ite_none_right_eq_some.mp hstep
    exact Option.some.inj heq ▸ sound_of_notify h hpoint _
  | wake =>
    obtain ⟨hpoint, heq⟩ := Option.ite_none_right_eq_some.mp hstep
    exact Option.some.inj heq ▸ h.goOn (by simp [hpoint]) trivial (fun heq => (by cases heq))
      fun heq => (by cases heq)

end SyncState

/-! ## Coming back -/

/-- The steps a coroutine has before it; its notification gets the caller up. -/
@[simp] def SyncPoint.rank : SyncPoint → ℕ
  | .absent => 6
  | .awaiting => 5
  | .setting => 4
  | .notifying => 3
  | .suspended => 0

/-- The steps of the caller before it sleeps or turns to the next task. -/
@[simp] def WaitPoint.rank : WaitPoint → ℕ
  | .calling => 5
  | .inTask => 4
  | .testing => 3
  | .reading => 2
  | .sleeping => 1
  | .returned => 0

namespace SyncState

variable {T : Type} {values : List T} {s t : SyncState T}

def cost (n : ℕ) (s : SyncState T) : ℕ :=
  ∑ j ∈ Finset.range n, (s.frames j).point.rank + 4 * (n - s.task) + s.point.rank

theorem sum_rank_setFrame {n k : ℕ} (hk : k < n) (frame : SyncFrame T) :
    ∑ j ∈ Finset.range n, (s.setFrame k frame j).point.rank + (s.frames k).point.rank
      = ∑ j ∈ Finset.range n, (s.frames j).point.rank + frame.point.rank :=
  sum_update_add (Finset.mem_range.mpr hk) (fun frame => frame.point.rank) s.frames frame

/-- A coroutine that takes a step is one of those there are. -/
theorem Sound.lt_length (h : s.Sound values) {k : ℕ} (hstarted : (s.frames k).point ≠ .absent) :
    k < values.length := by
  rcases h.cases_point hstarted with hlt | ⟨rfl, hwaits⟩
  · exact hlt.trans_le h.le
  · obtain ⟨v, hv, -⟩ := h.current hwaits
    exact (List.getElem?_eq_some_iff.mp hv).1

/-- **Every step but a spurious wake-up uses something up.** -/
theorem cost_lt_of_own {a : SyncAction} (h : s.Sound values) (ha : a.Own)
    (hstep : s.step values a = some t) : t.cost values.length < s.cost values.length := by
  cases a with
  | go =>
    cases goes_of_go hstep with
    | call hpoint hlt =>
      have hsum := sum_rank_setFrame (s := s) hlt ⟨.awaiting, true, false, none⟩
      rw [h.idle (by simp [hpoint])] at hsum
      simp only [cost, hpoint, SyncPoint.rank, WaitPoint.rank] at hsum ⊢
      omega
    | «return» hpoint hge => simp [cost, hpoint]
    | leave hpoint => simp [cost, hpoint]
    | see hpoint hflag => simp [cost, hpoint]
    | sleep hpoint hflag => simp [cost, hpoint]
    | take hpoint v hv =>
      obtain ⟨w, hw, -⟩ := h.current (by simp [hpoint])
      have hlt : s.task < values.length := (List.getElem?_eq_some_iff.mp hw).1
      have hsum := sum_rank_setFrame (s := s) hlt { s.frames s.task with alive := false }
      simp only [cost, hpoint, WaitPoint.rank] at hsum ⊢
      omega
    | fault hpoint hv =>
      obtain ⟨v, -, hlive⟩ := h.current (by simp [hpoint])
      have hfinal := hlive.flag.mp (h.reading hpoint)
      have hvalue := hlive.value (by rcases hfinal with heq | heq <;> simp [heq])
      cases hv.symm.trans hvalue
  | finish k =>
    obtain ⟨hpoint, heq⟩ := Option.ite_none_right_eq_some.mp hstep
    obtain rfl := Option.some.inj heq
    have hsum := sum_rank_setFrame (s := s) (h.lt_length (k := k) (by simp [hpoint]))
      { s.frames k with point := .setting, value := values[k]? }
    simp only [cost, hpoint, SyncPoint.rank] at hsum ⊢
    omega
  | set k =>
    obtain ⟨hpoint, heq⟩ := Option.ite_none_right_eq_some.mp hstep
    obtain rfl := Option.some.inj heq
    have hsum := sum_rank_setFrame (s := s) (h.lt_length (k := k) (by simp [hpoint]))
      { s.frames k with point := .notifying, flag := true }
    simp only [cost, hpoint, SyncPoint.rank] at hsum ⊢
    omega
  | notify k =>
    obtain ⟨hpoint, heq⟩ := Option.ite_none_right_eq_some.mp hstep
    obtain rfl := Option.some.inj heq
    have hsum := sum_rank_setFrame (s := s) (h.lt_length (k := k) (by simp [hpoint]))
      { s.frames k with point := .suspended }
    have hup : (if s.task = k ∧ s.point = .sleeping then .testing else s.point : WaitPoint).rank
        ≤ s.point.rank + 2 := by
      split
      case isTrue hsleeping => simp [hsleeping.2]
      case isFalse => omega
    simp only [cost, hpoint, SyncPoint.rank] at hsum ⊢
    omega
  | wake => exact ha.elim

/-- **Where no such step is left, the caller has returned.** -/
theorem done_of_rest (h : s.Sound values)
    (hrest : ∀ a : SyncAction, a.Own → s.step values a = none) : s.Done values := by
  have hgo : s.go values.length = none := hrest .go trivial
  cases hpoint : s.point with
  | returned =>
    refine ⟨hpoint, ?_⟩
    rw [h.results, h.returned hpoint, List.take_length]
  | calling => by_cases hlt : s.task < values.length <;> simp [go, hpoint, hlt] at hgo
  | inTask => simp [go, hpoint] at hgo
  | testing => simp [go, hpoint] at hgo
  | reading => cases hv : (s.frames s.task).value <;> simp [go, hpoint, hv] at hgo
  | sleeping =>
    -- somebody is still to notify
    obtain ⟨v, -, hlive⟩ := h.current (by simp [hpoint])
    cases hframe : (s.frames s.task).point with
    | absent => exact absurd hframe hlive.started
    | awaiting => simpa [step, hframe] using hrest (.finish s.task) trivial
    | setting => simpa [step, hframe] using hrest (.set s.task) trivial
    | notifying => simpa [step, hframe] using hrest (.notify s.task) trivial
    | suspended => exact absurd hframe (h.sleeping hpoint)

end SyncState

/-- **`sync_wait_all` comes back** with the values of its tasks in their order: from every state it
can be in, whatever the threads do next, as long as the tasks end. -/
theorem syncWaitAll_of_run {T : Type} (values : List T) {actions : List SyncAction}
    {s : SyncState T} (hrun : (syncSystem values).run actions = some s) :
    (syncSystem values).Inevitably SyncAction.Own (fun s => s.Done values) s := by
  have hsound := System.forall_visited (SyncState.Sound values) (SyncState.sound_init values)
    (fun s a t h hstep => SyncState.sound_of_step h hstep) actions s
    (System.mem_visited_of_run _ hrun)
  exact System.inevitably_of_cost (SyncState.Sound values)
    (SyncState.cost values.length)
    (fun s a t h ha hstep => ⟨SyncState.sound_of_step h hstep, SyncState.cost_lt_of_own h ha hstep⟩)
    (fun s h hrest => SyncState.done_of_rest h hrest) hsound

/-- The caller is asleep, and the flag of the first of two tasks is set. -/
def setWhileAsleep : List SyncAction := [.go, .go, .go, .finish 0, .set 0]

theorem syncWaitAll_setWhileAsleep : ∃ s, (syncSystem [4, 5]).run setWhileAsleep = some s ∧
    s.point = .sleeping ∧
      (syncSystem [4, 5]).Inevitably SyncAction.Own (fun s => s.Done [4, 5]) s := by
  obtain ⟨s, hs⟩ : ∃ s, (syncSystem [4, 5]).run setWhileAsleep = some s := ⟨_, rfl⟩
  refine ⟨s, hs, ?_, syncWaitAll_of_run [4, 5] hs⟩
  rw [← Option.some.inj hs]
  rfl

/-! ## The flag of a frame that is gone -/

namespace SyncState

variable {T : Type} {values : List T} {s t : SyncState T}

/-- Who has been waited for is suspended at the end, and nothing touches its frame any more. -/
structure Clean (values : List T) (s : SyncState T) : Prop where
  sound : s.Sound values
  noFault : s.fault = false
  before : ∀ j < s.task, (s.frames j).point = .suspended

theorem Clean.setFrame_task (h : s.Clean values) (frame : SyncFrame T) :
    ∀ j < s.task, (s.setFrame s.task frame j).point = .suspended := fun j hj => by
  rw [setFrame_of_ne (Nat.ne_of_lt hj)]
  exact h.before j hj

/-- The frame of the task that is waited for is there. -/
theorem Clean.alive (h : s.Clean values) (hwaits : s.point.Waits) :
    (s.frames s.task).alive = true := by
  obtain ⟨v, -, hlive⟩ := h.sound.current hwaits
  exact hlive.alive

theorem clean_of_step {a : SyncAction} (h : s.Clean values) (hstep : s.step values a = some t)
    (hrest : s.FrameAtRest a) : t.Clean values := by
  have hsound := sound_of_step h.sound hstep
  cases a with
  | go =>
    cases goes_of_go hstep with
    | call hpoint hlt => exact ⟨hsound, h.noFault, h.setFrame_task _⟩
    | «return» hpoint hge => exact ⟨hsound, h.noFault, h.before⟩
    | leave hpoint => exact ⟨hsound, h.noFault, h.before⟩
    | see hpoint hflag => exact ⟨hsound, h.noFault, h.before⟩
    | sleep hpoint hflag => exact ⟨hsound, h.noFault, h.before⟩
    | take hpoint v hv =>
      refine ⟨hsound, h.noFault, fun j (hj : j < s.task + 1) => ?_⟩
      rcases Nat.lt_succ_iff_lt_or_eq.mp hj with hlt | rfl
      · exact h.setFrame_task _ j hlt
      · simpa only [setFrame_self] using hrest hpoint
    | fault hpoint hv =>
      obtain ⟨v, -, hlive⟩ := h.sound.current (by simp [hpoint])
      rw [hlive.value (by simp [hrest hpoint])] at hv
      cases hv
  | finish k =>
    obtain ⟨hpoint, heq⟩ := Option.ite_none_right_eq_some.mp hstep
    obtain rfl := Option.some.inj heq
    obtain ⟨rfl, -⟩ := h.sound.eq_task (Or.inl hpoint)
    exact ⟨hsound, h.noFault, h.setFrame_task _⟩
  | set k =>
    obtain ⟨hpoint, heq⟩ := Option.ite_none_right_eq_some.mp hstep
    obtain rfl := Option.some.inj heq
    obtain ⟨rfl, hwaits⟩ := h.sound.eq_task (Or.inr hpoint)
    exact ⟨hsound, by simp [h.noFault, h.alive hwaits], h.setFrame_task _⟩
  | notify k =>
    obtain ⟨hpoint, heq⟩ := Option.ite_none_right_eq_some.mp hstep
    obtain rfl := Option.some.inj heq
    rcases h.sound.cases_point (k := k) (by simp [hpoint]) with hlt | ⟨rfl, hwaits⟩
    · cases hpoint.symm.trans (h.before k hlt)
    · exact ⟨hsound, by simp [h.noFault, h.alive hwaits], h.setFrame_task _⟩
  | wake =>
    obtain ⟨-, heq⟩ := Option.ite_none_right_eq_some.mp hstep
    obtain rfl := Option.some.inj heq
    exact ⟨hsound, h.noFault, h.before⟩

/-- **A frame destroyed between `test_and_set` and `notify_all`** is touched by the second. -/
theorem exists_fault_of_step {a : SyncAction} (h : s.Sound values)
    (hstep : s.step values a = some t) (hmissed : ¬ s.FrameAtRest a) :
    ∃ u, t.step values (.notify s.task) = some u ∧ u.fault = true := by
  cases a with
  | go =>
    obtain ⟨hpoint, hearly⟩ := Classical.not_imp.mp hmissed
    obtain ⟨v, -, hlive⟩ := h.current (by simp [hpoint])
    have hnotifying : (s.frames s.task).point = .notifying :=
      (hlive.flag.mp (h.reading hpoint)).resolve_right hearly
    have hvalue := hlive.value (by simp [hnotifying])
    simp only [step, go, hpoint, hvalue, Option.some.injEq] at hstep
    subst hstep
    refine ⟨_, if_pos ?_, ?_⟩ <;> simp [hnotifying]
  | _ => exact absurd trivial hmissed

end SyncState

/-- **The flag is only ever touched in a frame that is there, exactly as long as the caller destroys
each frame after the notification**: it must not see the flag between `test_and_set` and
`notify_all`. -/
theorem noFault_exactFor {T : Type} (values : List T) (actions : List SyncAction) :
    (syncSystem values).ExactFor (fun s => s.fault = false) SyncState.FrameAtRest actions := by
  refine System.exactFor_of_inv (SyncState.Clean values)
    ⟨SyncState.sound_init values, rfl, fun j h => absurd h (Nat.not_lt_zero j)⟩
    (fun s h => h.noFault) (fun s a t => SyncState.clean_of_step)
    (fun s a t h hstep hmissed => ?_) actions
  obtain ⟨u, hnotify, hu⟩ := SyncState.exists_fault_of_step h.sound hstep hmissed
  refine ⟨[.notify s.task], u, ?_, by simp [hu]⟩
  have hnotify' : (syncSystem values).step t (.notify s.task) = some u := hnotify
  rw [System.runFrom_cons, hnotify']
  rfl

end YServer
