import YServer.Machinery.Runs
import Mathlib.Data.List.Basic
import Mathlib.Logic.Function.Basic

/-!
# BaseNet/Listen — the worker coroutines `http_server::listen` starts

The listening thread starts one worker coroutine for each pool thread; a worker parks itself in the
pool's queue, is resumed by a pool thread, constructs its `thread_worker` and calls `event_loop`.
That is no coroutine but a function that never returns, so the worker never gets to its second
`co_await`, and runs for ever:

    created ──task.resume──▶ scheduled ──pool pops it──▶ running ──event_loop()──▶ inEventLoop

Then `sync_wait_all` awaits the workers, and `task_awaiter::await_suspend` answers with the worker's
handle: the listening thread resumes it, wherever it stands.  A scheduled worker gets a second
resumer, and one that runs, in its event loop or before, is resumed while it runs.  Nothing else
disturbs the workers (`undisturbed_iff`).
-/

namespace YServer

open Machinery

/-! ## The coroutines and the threads -/

/-- Where a worker coroutine stands. -/
inductive WorkerPoint
  | absent
  | created
  /-- Suspended in `co_await thread_pool_.schedule()`. -/
  | scheduled
  | running
  /-- Running in `thread_worker(port, engine_).event_loop()`. -/
  | inEventLoop
  /-- At its final suspension.  No step leads here, for `event_loop` never returns. -/
  | finished
  deriving DecidableEq, Repr

/-- What a worker is suspended in when it is resumed. -/
inductive Suspension
  | initial
  | schedule
  deriving DecidableEq, Repr

inductive Thread
  | listen
  | pool (j : ℕ)
  deriving DecidableEq, Repr

/-- A resumption that took place. -/
structure Resumption where
  worker : ℕ
  suspension : Suspension
  thread : Thread
  deriving DecidableEq, Repr

/-- Where the listening thread stands in `http_server::listen`. -/
inductive ListenPoint
  /-- At the head of the loop that starts the workers. -/
  | spawning (k : ℕ)
  /-- In `sync_wait_all`, about to `sync_wait` for a task. -/
  | waiting (k : ℕ)
  /-- Inside a worker, to which that `sync_wait` has transferred it. -/
  | inWorker (k : ℕ)
  | returned
  deriving DecidableEq, Repr

structure ListenState where
  listener : ListenPoint
  point : ℕ → WorkerPoint
  /-- The event loop of the worker has been entered. -/
  loopRuns : ℕ → Bool
  /-- `m_coroutine_queue`. -/
  queue : List ℕ
  /-- The pool thread is not in `thread_loop`'s own code. -/
  busy : ℕ → Bool
  resumed : List Resumption
  /-- A coroutine was resumed that was not suspended: undefined behaviour. -/
  fault : Bool
  /-- An exception got out of a worker's body, and `unhandled_exception` ended the process. -/
  terminated : Bool

inductive ListenAction
  /-- The listening thread goes on. -/
  | listen
  /-- A pool thread pops a handle and resumes it. -/
  | pop (j : ℕ)
  /-- A running worker constructs its `thread_worker` and enters the event loop. -/
  | enter (i : ℕ)
  /-- …or the constructor throws: the buffers cannot be registered, or `bind` or `listen` fails. -/
  | throw (i : ℕ)
  deriving DecidableEq, Repr

namespace ListenState

/-- `coroutine_handle::resume` on a worker: what the coroutine does up to its next suspension, or,
from `schedule` on, up to the construction of its `thread_worker`. -/
def resume (s : ListenState) (i : ℕ) (thread : Thread) : ListenState :=
  match s.point i with
  | .created =>
    { s with
      point := Function.update s.point i .scheduled
      queue := s.queue ++ [i]
      resumed := s.resumed ++ [⟨i, .initial, thread⟩] }
  | .scheduled =>
    { s with
      point := Function.update s.point i .running
      resumed := s.resumed ++ [⟨i, .schedule, thread⟩] }
  | .absent | .running | .inEventLoop | .finished => { s with fault := true }

/-- `http_server::listen` with `n` pool threads, then `sync_wait_all`. -/
def listenStep (n : ℕ) (s : ListenState) : Option ListenState :=
  match s.listener with
  | .spawning k =>
    if k < n then
      let started : ListenState :=
        { s with listener := .spawning (k + 1), point := Function.update s.point k .created }
      some (started.resume k .listen)
    else some { s with listener := .waiting 0 }
  | .waiting k =>
    if k < n then
      if s.point k = .finished then some { s with listener := .waiting (k + 1) }
      else
        -- `await_suspend` answers with the worker's handle
        some { s.resume k .listen with listener := .inWorker k }
    else some { s with listener := .returned }
  | .inWorker _ => none
  | .returned => none

/-- One turn of `thread_pool::thread_loop`, which the worker never gives the thread back for. -/
def popStep (n : ℕ) (s : ListenState) (j : ℕ) : Option ListenState :=
  if j < n ∧ s.busy j = false then
    match s.queue with
    | [] => none
    | i :: queue =>
      some { { s with queue := queue }.resume i (.pool j) with
        busy := Function.update s.busy j true }
  else none

def enterStep (s : ListenState) (i : ℕ) : Option ListenState :=
  if s.point i = .running then
    some { s with
      point := Function.update s.point i .inEventLoop
      loopRuns := Function.update s.loopRuns i true }
  else none

def throwStep (s : ListenState) (i : ℕ) : Option ListenState :=
  if s.point i = .running then some { s with terminated := true } else none

def step (n : ℕ) (s : ListenState) (a : ListenAction) : Option ListenState :=
  if s.fault ∨ s.terminated then none
  else
    match a with
    | .listen => s.listenStep n
    | .pop j => s.popStep n j
    | .enter i => s.enterStep i
    | .throw i => s.throwStep i

/-- How often a worker was resumed from `schedule`. -/
def scheduleResumptions (s : ListenState) (i : ℕ) : ℕ :=
  s.resumed.countP fun r => r.worker = i ∧ r.suspension = .schedule

/-- **Every suspension is resumed once and by its own event.** -/
structure Undisturbed (s : ListenState) : Prop where
  noFault : s.fault = false
  byPool : ∀ r ∈ s.resumed, r.suspension = .schedule → ∃ j, r.thread = .pool j
  /-- From `schedule` a worker is resumed once: it has been, or its handle waits in the queue. -/
  once : ∀ i, s.scheduleResumptions i ≤ 1
  queued : ∀ i, s.queue.count i = if s.point i = .scheduled then 1 else 0
  /-- Only the end of the event loop could take a worker out of it, and with it the end of its
  `thread_worker`; there is none. -/
  loopAlive : ∀ i, s.loopRuns i = true → s.point i = .inEventLoop
  notReturned : s.listener = .returned → ∀ i, s.loopRuns i = false

end ListenState

/-- `http_server::listen` on a pool of `n` threads. -/
def listenSystem (n : ℕ) : System ListenState ListenAction where
  init :=
    { listener := .spawning 0
      point := fun _ => .absent
      loopRuns := fun _ => false
      queue := []
      busy := fun _ => false
      resumed := []
      fault := false
      terminated := false }
  step := ListenState.step n

/-- The condition on one action: `sync_wait` finds no worker to transfer to. -/
def ListenState.AwaitsReady (n : ℕ) (s : ListenState) : ListenAction → Prop
  | .listen => ∀ k < n, s.listener = .waiting k → s.point k = .finished
  | _ => True

/-! ## The invariant -/

/-- Suspended or running, as it should be. -/
def WorkerPoint.Started (p : WorkerPoint) : Prop :=
  p = .scheduled ∨ p = .running ∨ p = .inEventLoop

namespace ListenState

/-- The workers that have been started, as far as the listening thread has come. -/
def Listening (n : ℕ) (point : ℕ → WorkerPoint) : ListenPoint → Prop
  | .spawning k => k ≤ n ∧ (∀ i < k, (point i).Started) ∧ ∀ i, k ≤ i → point i = .absent
  | .waiting k => k = 0 ∧ (∀ i < n, (point i).Started) ∧ ∀ i, n ≤ i → point i = .absent
  | .inWorker _ => False
  | .returned => n = 0 ∧ ∀ i, point i = .absent

/-- The invariant of the runs in which `sync_wait` transfers to no worker. -/
structure Orderly (n : ℕ) (s : ListenState) : Prop where
  noFault : s.fault = false
  ordinary : ∀ r ∈ s.resumed,
    r.suspension = .initial ∨ r.suspension = .schedule ∧ ∃ j, r.thread = .pool j
  once : ∀ i, s.scheduleResumptions i
    = if s.point i = .running ∨ s.point i = .inEventLoop then 1 else 0
  queued : ∀ i, s.queue.count i = if s.point i = .scheduled then 1 else 0
  loops : ∀ i, s.loopRuns i = true → s.point i = .inEventLoop
  listening : Listening n s.point s.listener

variable {n : ℕ} {s t : ListenState}

theorem Orderly.undisturbed (h : s.Orderly n) : s.Undisturbed where
  noFault := h.noFault
  byPool r hr hschedule := by
    rcases h.ordinary r hr with hinit | ⟨-, hpool⟩
    · rw [hinit] at hschedule; cases hschedule
    · exact hpool
  once i := by
    rw [h.once i]
    split <;> omega
  queued := h.queued
  loopAlive := h.loops
  notReturned hret i := by
    have hlisten := h.listening
    rw [hret] at hlisten
    refine Bool.eq_false_iff.mpr fun hloop => ?_
    have hpoint := h.loops i hloop
    rw [hlisten.2 i] at hpoint
    cases hpoint

/-! ### Resuming a worker -/

theorem resume_of_scheduled {i : ℕ} {thread : Thread} (h : s.point i = .scheduled) :
    s.resume i thread = { s with
      point := Function.update s.point i .running
      resumed := s.resumed ++ [⟨i, .schedule, thread⟩] } := by
  rw [resume, h]

theorem resume_of_created {i : ℕ} {thread : Thread} (h : s.point i = .created) :
    s.resume i thread = { s with
      point := Function.update s.point i .scheduled
      queue := s.queue ++ [i]
      resumed := s.resumed ++ [⟨i, .initial, thread⟩] } := by
  rw [resume, h]

@[simp] theorem resume_listener (i : ℕ) (thread : Thread) :
    (s.resume i thread).listener = s.listener := by
  rw [resume]
  split <;> rfl

theorem resume_terminated (i : ℕ) (thread : Thread) :
    (s.resume i thread).terminated = s.terminated := by
  rw [resume]
  split <;> rfl

theorem countP_append_resumption (resumed : List Resumption) (r : Resumption) (i : ℕ) :
    (resumed ++ [r]).countP (fun r => r.worker = i ∧ r.suspension = .schedule)
      = resumed.countP (fun r => r.worker = i ∧ r.suspension = .schedule)
        + if r.worker = i ∧ r.suspension = .schedule then 1 else 0 := by
  rw [List.countP_append, List.countP_singleton]
  simp only [decide_eq_true_eq]

/-! ### One action -/

/-- A started worker may move on to another point of a started one. -/
theorem listening_update {point : ℕ → WorkerPoint} {listener : ListenPoint} {k : ℕ}
    {p : WorkerPoint}
    (hk : (point k).Started) (hp : p.Started) (h : Listening n point listener) :
    Listening n (Function.update point k p) listener := by
  have hstarted : ∀ i, (point i).Started → (Function.update point k p i).Started := fun i hi => by
    rcases eq_or_ne i k with rfl | hne
    · rwa [Function.update_self]
    · rwa [Function.update_of_ne hne]
  have habsent : ∀ i, point i = .absent → Function.update point k p i = .absent := fun i hi => by
    rcases eq_or_ne i k with rfl | hne
    · rw [hi] at hk
      rcases hk with hk | hk | hk <;> cases hk
    · rwa [Function.update_of_ne hne]
  cases listener with
  | spawning m =>
    exact ⟨h.1, fun i hi => hstarted i (h.2.1 i hi), fun i hi => habsent i (h.2.2 i hi)⟩
  | waiting m =>
    exact ⟨h.1, fun i hi => hstarted i (h.2.1 i hi), fun i hi => habsent i (h.2.2 i hi)⟩
  | inWorker m => exact h
  | returned => exact ⟨h.1, fun i => habsent i (h.2 i)⟩

/-- **A worker is started**: it is resumed once, by hand, and parks itself in the queue. -/
theorem Orderly.spawn (h : s.Orderly n) {k : ℕ} (hk : k < n) (hlisten : s.listener = .spawning k)
    (hst : s.listenStep n = some t) : t.Orderly n := by
  obtain ⟨-, hbelow, habove⟩ : Listening n s.point (.spawning k) := hlisten ▸ h.listening
  have hpoint : s.point k = .absent := habove k (Nat.le_refl k)
  rw [listenStep, hlisten] at hst
  simp only [if_pos hk, Option.some.injEq] at hst
  rw [resume_of_created (by exact Function.update_self k _ _)] at hst
  subst hst
  have hother : ∀ i, i ≠ k → Function.update (Function.update s.point k .created) k .scheduled i
      = s.point i := fun i hi => by rw [Function.update_of_ne hi, Function.update_of_ne hi]
  have hself : Function.update (Function.update s.point k .created) k .scheduled k = .scheduled :=
    Function.update_self k _ _
  refine ⟨h.noFault, ?_, fun i => ?_, fun i => ?_, fun i hi => ?_, ?_⟩
  · intro r hr
    rcases List.mem_append.mp hr with hr | hr
    · exact h.ordinary r hr
    · exact Or.inl (by rw [List.mem_singleton.mp hr])
  · refine (countP_append_resumption s.resumed _ i).trans ?_
    rw [if_neg (by simp), Nat.add_zero]
    refine (h.once i).trans ?_
    rcases eq_or_ne i k with rfl | hi
    · simp [hpoint]
    · simp only [hother i hi]
  · change (s.queue ++ [k]).count i = _
    rw [List.count_append, h.queued i]
    rcases eq_or_ne i k with rfl | hi
    · simp [hpoint]
    · simp [hother i hi, hi.symm]
  · have hloop := h.loops i hi
    rcases eq_or_ne i k with rfl | hne
    · rw [hpoint] at hloop; cases hloop
    · exact (hother i hne).trans hloop
  · refine ⟨hk, fun i hi => ?_, fun i hi => ?_⟩
    · rcases eq_or_ne i k with rfl | hne
      · exact Or.inl hself
      · change WorkerPoint.Started
          (Function.update (Function.update s.point k .created) k .scheduled i)
        rw [hother i hne]
        exact hbelow i (by omega)
    · exact (hother i (by omega)).trans (habove i (by omega))

/-- **The listening thread goes on**, short of a transfer. -/
theorem Orderly.listen (h : s.Orderly n) (hready : s.AwaitsReady n .listen)
    (hst : s.listenStep n = some t) : t.Orderly n := by
  cases hlisten : s.listener with
  | spawning k =>
    by_cases hk : k < n
    · exact h.spawn hk hlisten hst
    · obtain ⟨hkn, hbelow, habove⟩ : Listening n s.point (.spawning k) := hlisten ▸ h.listening
      obtain rfl : k = n := Nat.le_antisymm hkn (Nat.le_of_not_lt hk)
      rw [listenStep, hlisten] at hst
      simp only [if_neg hk, Option.some.injEq] at hst
      subst hst
      exact ⟨h.noFault, h.ordinary, h.once, h.queued, h.loops, rfl, hbelow, habove⟩
  | waiting k =>
    obtain ⟨rfl, hstarted, habsent⟩ : Listening n s.point (.waiting k) := hlisten ▸ h.listening
    rcases Nat.eq_zero_or_pos n with rfl | hn
    · rw [listenStep, hlisten] at hst
      simp only [Nat.lt_irrefl, if_false, Option.some.injEq] at hst
      subst hst
      exact ⟨h.noFault, h.ordinary, h.once, h.queued, h.loops, rfl,
        fun i => habsent i (Nat.zero_le i)⟩
    · -- no worker has finished, so `sync_wait` would have to transfer
      have hfin := hready 0 hn hlisten
      rcases hstarted 0 hn with hp | hp | hp <;> rw [hfin] at hp <;> cases hp
  | inWorker k =>
    have := h.listening
    rw [hlisten] at this
    exact this.elim
  | returned => rw [listenStep, hlisten] at hst; cases hst

/-- A queued worker is suspended in `schedule`. -/
theorem Orderly.scheduled_of_queue (h : s.Orderly n) {k : ℕ} {queue : List ℕ}
    (hq : s.queue = k :: queue) : s.point k = .scheduled := by
  by_contra hne
  have hcount := h.queued k
  rw [hq, List.count_cons_self, if_neg hne] at hcount
  cases hcount

/-- A worker whose event loop does not run may move on. -/
theorem Orderly.loops_update (h : s.Orderly n) {k : ℕ} (hk : s.point k ≠ .inEventLoop)
    (p : WorkerPoint) :
    ∀ i, s.loopRuns i = true → Function.update s.point k p i = .inEventLoop := by
  intro i hi
  have hloop := h.loops i hi
  have hne : i ≠ k := fun heq => hk (heq ▸ hloop)
  exact (Function.update_of_ne hne _ _).trans hloop

/-- **A pool thread resumes the worker it pops**, which is suspended in `schedule`. -/
theorem Orderly.pop (h : s.Orderly n) {j : ℕ} (hst : s.popStep n j = some t) : t.Orderly n := by
  rw [popStep] at hst
  split at hst
  case isFalse => cases hst
  case isTrue =>
    cases hq : s.queue with
    | nil => rw [hq] at hst; cases hst
    | cons k queue =>
      have hpoint := h.scheduled_of_queue hq
      have hresume : ({ s with queue := queue } : ListenState).resume k (.pool j)
          = { s with
              queue := queue
              point := Function.update s.point k .running
              resumed := s.resumed ++ [⟨k, .schedule, .pool j⟩] } := resume_of_scheduled hpoint
      simp only [hq, hresume, Option.some.injEq] at hst
      subst hst
      have hself : Function.update s.point k .running k = .running := Function.update_self k _ _
      have hother : ∀ i, i ≠ k → Function.update s.point k .running i = s.point i :=
        fun i hi => Function.update_of_ne hi _ _
      refine ⟨h.noFault, ?_, fun i => ?_, fun i => ?_,
        h.loops_update (by simp [hpoint]) _, ?_⟩
      · intro r hr
        rcases List.mem_append.mp hr with hr | hr
        · exact h.ordinary r hr
        · exact Or.inr (by rw [List.mem_singleton.mp hr]; exact ⟨rfl, j, rfl⟩)
      · refine (countP_append_resumption s.resumed _ i).trans ?_
        have honce := h.once i
        rw [scheduleResumptions] at honce
        rw [honce]
        rcases eq_or_ne i k with rfl | hi
        · simp [hpoint]
        · simp [hother i hi, hi.symm]
      · have hqueued := h.queued i
        rw [hq, List.count_cons] at hqueued
        change queue.count i = _
        rcases eq_or_ne i k with rfl | hi
        · rw [if_pos hpoint, if_pos (beq_self_eq_true i)] at hqueued
          simpa [hself] using hqueued
        · simpa [hother i hi, hi.symm] using hqueued
      · exact listening_update (Or.inl hpoint) (Or.inr (Or.inl rfl)) h.listening

/-- **A worker enters its event loop.** -/
theorem Orderly.enter (h : s.Orderly n) {k : ℕ} (hst : s.enterStep k = some t) : t.Orderly n := by
  rw [enterStep] at hst
  split at hst
  case isFalse => cases hst
  case isTrue hpoint =>
    rw [Option.some.injEq] at hst
    subst hst
    have hother : ∀ i, i ≠ k → Function.update s.point k .inEventLoop i = s.point i :=
      fun i hi => Function.update_of_ne hi _ _
    refine ⟨h.noFault, h.ordinary, fun i => ?_, fun i => ?_, fun i hi => ?_, ?_⟩
    · refine (h.once i).trans ?_
      rcases eq_or_ne i k with rfl | hi
      · simp [hpoint]
      · simp only [hother i hi]
    · refine (h.queued i).trans ?_
      rcases eq_or_ne i k with rfl | hi
      · simp [hpoint]
      · simp only [hother i hi]
    · rcases eq_or_ne i k with rfl | hne
      · exact Function.update_self i _ _
      · refine (hother i hne).trans (h.loops i ?_)
        exact (Function.update_of_ne hne _ _).symm.trans hi
    · exact listening_update (Or.inr (Or.inl hpoint)) (Or.inr (Or.inr rfl)) h.listening

theorem Orderly.step_listen (h : s.Orderly n) (hlive : s.terminated = false) :
    ListenState.step n s .listen = s.listenStep n :=
  if_neg (by simp [h.noFault, hlive])

theorem Orderly.step (h : s.Orderly n) {a : ListenAction} (hst : ListenState.step n s a = some t)
    (ha : s.AwaitsReady n a) : t.Orderly n := by
  obtain ⟨-, hst⟩ := Option.ite_none_left_eq_some.mp hst
  cases a with
  | listen => exact h.listen ha hst
  | pop j => exact h.pop hst
  | enter i => exact h.enter hst
  | throw i =>
    obtain ⟨-, heq⟩ := Option.ite_none_right_eq_some.mp hst
    exact Option.some.inj heq ▸ { h with }

/-- **A transfer disturbs its worker**, wherever that stands: a scheduled one is resumed by the
wrong thread, and one that runs, in its event loop or before, while it runs. -/
theorem Orderly.not_undisturbed (h : s.Orderly n) {a : ListenAction}
    (hst : ListenState.step n s a = some t) (ha : ¬ s.AwaitsReady n a) : ¬ t.Undisturbed := by
  intro hund
  obtain ⟨-, hst⟩ := Option.ite_none_left_eq_some.mp hst
  cases a with
  | pop j => exact ha trivial
  | enter i => exact ha trivial
  | throw i => exact ha trivial
  | listen =>
    obtain ⟨k, hk, hlisten, hfin⟩ : ∃ k < n, s.listener = .waiting k ∧ s.point k ≠ .finished := by
      by_contra hno
      exact ha fun k hk hlisten => by
        by_contra hfin
        exact hno ⟨k, hk, hlisten, hfin⟩
    obtain ⟨-, hstarted, -⟩ : Listening n s.point (.waiting k) := hlisten ▸ h.listening
    simp only [listenStep, hlisten, if_pos hk, if_neg hfin, Option.some.injEq] at hst
    subst hst
    have hrunning : s.point k = .running ∨ s.point k = .inEventLoop → False := fun hp => by
      have hfault := hund.noFault
      rcases hp with hp | hp <;> simp [resume, hp] at hfault
    rcases hstarted k hk with hp | hp | hp
    · obtain ⟨j, hj⟩ := hund.byPool ⟨k, .schedule, .listen⟩ (by simp [resume, hp]) rfl
      cases hj
    · exact hrunning (Or.inl hp)
    · exact hrunning (Or.inr hp)

end ListenState

/-! ## Whole runs -/

theorem orderly_init (n : ℕ) : ListenState.Orderly n (listenSystem n).init where
  noFault := rfl
  ordinary _ hr := nomatch hr
  once _ := rfl
  queued _ := rfl
  loops _ hi := nomatch hi
  listening := ⟨Nat.zero_le n, fun _ hi => absurd hi (Nat.not_lt_zero _), fun _ _ => rfl⟩

/-- **The workers are undisturbed throughout a run exactly as long as `sync_wait` finds none to
transfer to.** -/
theorem undisturbed_iff (n : ℕ) (run : List ListenAction) :
    (∀ s ∈ (listenSystem n).visited run, s.Undisturbed) ↔
      ∀ m ∈ (listenSystem n).moves run, m.src.AwaitsReady n m.act :=
  System.forall_visited_iff_moves (ListenState.Orderly n) (orderly_init n)
    (fun _ hs => hs.undisturbed) (fun _ _ _ hs hst ha => hs.step hst ha)
    (fun _ _ _ hs hst ha => hs.not_undisturbed hst ha) run

/-- The listening thread can start its workers before a pool thread does anything. -/
theorem run_spawning {n k : ℕ} (hk : k ≤ n) : ∃ s, (listenSystem n).run (List.replicate k .listen)
    = some s ∧ s.Orderly n ∧ s.listener = .spawning k ∧ s.terminated = false := by
  induction k with
  | zero => exact ⟨_, rfl, orderly_init n, rfl, rfl⟩
  | succ k ih =>
    obtain ⟨s, hrun, hs, hlisten, hlive⟩ := ih (Nat.le_of_succ_le hk)
    obtain ⟨t, hst, htl⟩ : ∃ t, s.listenStep n = some t ∧
        t.listener = .spawning (k + 1) ∧ t.terminated = false := by
      rw [ListenState.listenStep, hlisten]
      refine ⟨_, if_pos hk, ListenState.resume_listener _ _, ?_⟩
      exact (ListenState.resume_terminated _ _).trans hlive
    refine ⟨t, ?_, hs.spawn hk hlisten hst, htl⟩
    rw [List.replicate_succ']
    exact (listenSystem n).run_concat hrun ((hs.step_listen hlive).trans hst)

/-- **So there is an interleaving that disturbs a worker as soon as there is a worker.** -/
theorem forall_undisturbed_iff (n : ℕ) :
    (∀ run, ∀ s ∈ (listenSystem n).visited run, s.Undisturbed) ↔ n = 0 := by
  constructor
  · intro h
    by_contra hn
    obtain ⟨s, hrun, hs, hlisten, hlive⟩ := run_spawning (Nat.le_refl n)
    -- with all workers started the thread turns to `sync_wait_all`…
    have hturn : (listenSystem n).step s .listen = some { s with listener := .waiting 0 } := by
      refine (hs.step_listen hlive).trans ?_
      rw [ListenState.listenStep, hlisten]
      exact if_neg (Nat.lt_irrefl n)
    have hwait : ListenState.Orderly n { s with listener := .waiting 0 } :=
      ListenState.Orderly.step (a := .listen) hs hturn fun k _ hk => by rw [hlisten] at hk; cases hk
    -- …where the first of them has not finished
    have hpos : 0 < n := Nat.pos_of_ne_zero hn
    have hfin : s.point 0 ≠ .finished := by
      intro hfin
      rcases hwait.listening.2.1 0 hpos with hp | hp | hp <;> rw [hfin] at hp <;> cases hp
    obtain ⟨t, hst⟩ :
        ∃ t, (listenSystem n).step { s with listener := .waiting 0 } .listen = some t :=
      ⟨_, (hwait.step_listen hlive).trans ((if_pos hpos).trans (if_neg hfin))⟩
    have hrun' := (listenSystem n).run_concat ((listenSystem n).run_concat hrun hturn) hst
    exact hwait.not_undisturbed (a := .listen) hst (fun hready => hfin (hready 0 hpos rfl))
      (h _ t ((listenSystem n).mem_visited_of_run hrun'))
  · rintro rfl run s hs
    refine (System.forall_visited_of_moves (C := ListenState.AwaitsReady 0) (ListenState.Orderly 0)
      (orderly_init 0) (fun _ _ _ hs hst ha => hs.step hst ha) (fun m _ => ?_) s hs).undisturbed
    cases m.act with
    | listen => exact fun k hk => absurd hk (Nat.not_lt_zero k)
    | pop j => trivial
    | enter i => trivial
    | throw i => trivial

/-- One pool thread, which takes the worker's handle when the listening thread waits for it already.
-/
def listenRun : List ListenAction := [.listen, .listen, .listen, .pop 0]

/-- **The listening thread resumes the worker from `schedule`, and the pool thread resumes it again
while it runs.** -/
theorem not_undisturbed_listenRun :
    (¬ ∀ s ∈ (listenSystem 1).visited listenRun, s.Undisturbed) ∧
      ∃ s ∈ (listenSystem 1).run listenRun,
        s.resumed = [⟨0, .initial, .listen⟩, ⟨0, .schedule, .listen⟩] ∧ s.fault = true := by
  obtain ⟨s, hrun, hresumed, hfault⟩ : ∃ s, (listenSystem 1).run listenRun = some s ∧
      s.resumed = [⟨0, .initial, .listen⟩, ⟨0, .schedule, .listen⟩] ∧ s.fault = true :=
    ⟨_, rfl, rfl, rfl⟩
  refine ⟨fun h => ?_, s, hrun, hresumed, hfault⟩
  cases ((h s ((listenSystem 1).mem_visited_of_run hrun)).noFault).symm.trans hfault

end YServer
