import YServer.Machinery.Locks
import YServer.Machinery.Runs
import Mathlib.Data.List.Nodup

/-!
# BaseNet/ThreadPool — the queue of the thread pool

`schedule` puts a coroutine into the queue, and a pool thread takes it out and resumes it:

    enqueue       lock ─▸ push ─▸ notify_one ─▸ unlock
    thread_loop   stop? ─▸ lock ─▸ predicate? ─▸ stop? ─▸ pop ─▸ unlock ─▸ resume ─▸ stop? …
                              ▲        └─▸ block (unlocks) ┄┄▸ woken ┐
                              └──────────────────────────────────────┘

All of it is under one lock except the resumption.  So whatever the threads do, what has been taken
is the first part of what was put in, and what is left of it the queue (`forall_keepsWork`).
-/

namespace YServer

open Machinery

/-! ## Threads -/

/-- A thread of the pool, or one that calls `enqueue`. -/
inductive PoolThread (n : ℕ)
  | worker (i : Fin n)
  | caller (j : ℕ)
  deriving DecidableEq, Repr

/-- Where a thread is. -/
inductive PoolPoint
  /-- Outside the pool's functions. -/
  | idle
  /-- In `enqueue`: about to push, to notify, to unlock. -/
  | pushing (handle : ℕ)
  | notifying
  | leaving
  /-- In `thread_loop`: about to test for a stop, to lock, to test the predicate of the wait. -/
  | looping
  | locking
  | testing
  /-- The predicate was false: about to block, asleep, and about to lock again. -/
  | blocking
  | blocked
  | waking
  /-- It was true: about to test for a stop again, to pop, to unlock, to resume. -/
  | passed
  | popping
  | popped (k handle : ℕ)
  | resuming (k handle : ℕ)
  /-- In the coroutine. -/
  | running
  | returned
  deriving DecidableEq, Repr

/-- Where a thread calls `enqueue`, and is back afterwards: a worker in the coroutine it resumed. -/
def PoolThread.outside {n : ℕ} : PoolThread n → PoolPoint
  | .worker _ => .running
  | .caller _ => .idle

/-- The lock of the pool, while a thread holds it. -/
@[simp] def PoolPoint.holds : PoolPoint → Option Unit
  | .pushing _ | .notifying | .leaving | .testing | .blocking | .passed | .popping
  | .popped _ _ => some ()
  | _ => none

/-- The coroutine a thread has taken and not resumed yet: the `k`-th that was taken. -/
@[simp] def PoolPoint.inHand : PoolPoint → Option (ℕ × ℕ)
  | .popped k handle | .resuming k handle => some (k, handle)
  | _ => none

/-- A pool of `n` threads.  `enqueued` and `taken` are all handles that ever were, and `resumed` the
occurrences that have been resumed; `fault` is a `front` or `pop` of an empty queue. -/
structure PoolState (n : ℕ) where
  stop : Bool
  /-- The destructor has called `notify_all`. -/
  notifiedAll : Bool
  mutex : Option (PoolThread n)
  threads : PoolThread n → PoolPoint
  queue : List ℕ
  enqueued : List ℕ
  taken : List ℕ
  resumed : List (ℕ × ℕ)
  fault : Bool

inductive PoolAction (n : ℕ)
  /-- A thread calls `enqueue` and gets the lock. -/
  | enqueue (t : PoolThread n) (handle : ℕ)
  /-- A thread takes its next step. -/
  | go (t : PoolThread n)
  /-- `notify_one`, which wakes a sleeper if there is one. -/
  | notifyOne (t : PoolThread n) (woken : Option (Fin n))
  /-- A spurious wake-up. -/
  | wake (i : Fin n)
  /-- The destructor: `request_stop`, then `notify_all`. -/
  | requestStop
  | notifyAll
  deriving DecidableEq, Repr

namespace PoolState

variable {n : ℕ} (s : PoolState n)

/-- A thread gets to another point. -/
def moved (t : PoolThread n) (point : PoolPoint) : PoolThread n → PoolPoint :=
  Function.update s.threads t point

/-- The sleepers all wake. -/
def wokenAll (t : PoolThread n) : PoolPoint :=
  if s.threads t = .blocked then .waking else s.threads t

/-- `thread_loop` and `enqueue`, one step. -/
def go (t : PoolThread n) : Option (PoolState n) :=
  match s.threads t with
  | .pushing handle =>
    some { s with
      queue := s.queue ++ [handle]
      enqueued := s.enqueued ++ [handle]
      threads := s.moved t .notifying }
  | .leaving => some { s with mutex := none, threads := s.moved t t.outside }
  | .looping => some { s with threads := s.moved t (if s.stop then .returned else .locking) }
  | .locking | .waking =>
    if s.mutex = none then some { s with mutex := some t, threads := s.moved t .testing } else none
  | .testing =>
    some { s with threads := s.moved t (if s.queue ≠ [] ∨ s.stop then .passed else .blocking) }
  | .blocking => some { s with mutex := none, threads := s.moved t .blocked }
  | .passed =>
    if s.stop then some { s with mutex := none, threads := s.moved t .returned }
    else some { s with threads := s.moved t .popping }
  | .popping =>
    match s.queue with
    | [] => some { s with fault := true }
    | handle :: queue =>
      some { s with
        queue := queue
        taken := s.taken ++ [handle]
        threads := s.moved t (.popped s.taken.length handle) }
  | .popped k handle => some { s with mutex := none, threads := s.moved t (.resuming k handle) }
  | .resuming k handle =>
    some { s with resumed := s.resumed ++ [(k, handle)], threads := s.moved t .running }
  | .running => some { s with threads := s.moved t .looping }
  | .idle | .notifying | .blocked | .returned => none

def step : PoolAction n → Option (PoolState n)
  | .enqueue t handle =>
    if s.threads t = t.outside ∧ s.mutex = none then
      some { s with mutex := some t, threads := s.moved t (.pushing handle) }
    else none
  | .go t => s.go t
  | .notifyOne t (some i) =>
    if s.threads t = .notifying ∧ s.threads (.worker i) = .blocked then
      some { s with threads := Function.update (s.moved t .leaving) (.worker i) .waking }
    else none
  | .notifyOne t none =>
    if s.threads t = .notifying ∧ ∀ i, s.threads (.worker i) ≠ .blocked then
      some { s with threads := s.moved t .leaving }
    else none
  | .wake i =>
    if s.threads (.worker i) = .blocked then some { s with threads := s.moved (.worker i) .waking }
    else none
  | .requestStop => if s.stop then none else some { s with stop := true }
  | .notifyAll =>
    if s.stop ∧ ¬ s.notifiedAll then some { s with notifiedAll := true, threads := s.wokenAll }
    else none

/-- **No work is lost or repeated.** -/
structure KeepsWork : Prop where
  conserved : s.enqueued = s.taken ++ s.queue
  /-- What is resumed was put in, and is resumed once. -/
  once : (s.resumed.map Prod.fst).Nodup ∧ ∀ r ∈ s.resumed, s.enqueued[r.1]? = some r.2
  nonempty : ∀ t, s.threads t = .popping → s.queue ≠ []
  noFault : s.fault = false

end PoolState

/-- A pool of `n` threads, from its construction on. -/
def poolSystem (n : ℕ) : System (PoolState n) (PoolAction n) where
  init :=
    { stop := false
      notifiedAll := false
      mutex := none
      threads := fun | .worker _ => .looping | .caller _ => .idle
      queue := []
      enqueued := []
      taken := []
      resumed := []
      fault := false }
  step := PoolState.step

/-! ## What a thread can do -/

namespace PoolState

variable {n : ℕ} {s s' : PoolState n} {t : PoolThread n}

/-- **A step that only takes a thread on**: what becomes of the lock, and what the thread has found
out on the way. -/
structure Walks (s : PoolState n) (t : PoolThread n) (mutex : Option (PoolThread n))
    (point : PoolPoint) : Prop where
  lock : mutex = s.mutex ∧ (s.threads t).holds = point.holds ∨
    (mutex = some t ∧ s.mutex = none ∧ point.holds = some ()) ∨
    mutex = none ∧ (s.threads t).holds = some () ∧ point.holds = none
  source : s.threads t ≠ .notifying ∧ s.threads t ≠ .blocked
  inHand : ∀ r, point.inHand = some r → (s.threads t).inHand = some r
  passed : point = .passed → s.queue ≠ [] ∨ s.stop
  popping : point = .popping → s.threads t = .passed ∧ ¬ s.stop
  blocking : point = .blocking → s.queue = [] ∧ ¬ s.stop
  blocked : point = .blocked → s.threads t = .blocking

/-- **What a thread's own step can be.** -/
inductive Goes (s : PoolState n) (t : PoolThread n) : PoolState n → Prop
  | walk (mutex : Option (PoolThread n)) (point : PoolPoint) (h : s.Walks t mutex point) :
    Goes s t { s with mutex, threads := s.moved t point }
  | push (handle : ℕ) (h : s.threads t = .pushing handle) :
    Goes s t { s with
      queue := s.queue ++ [handle]
      enqueued := s.enqueued ++ [handle]
      threads := s.moved t .notifying }
  | pop (handle : ℕ) (queue : List ℕ) (h : s.threads t = .popping)
    (hqueue : s.queue = handle :: queue) :
    Goes s t { s with
      queue := queue
      taken := s.taken ++ [handle]
      threads := s.moved t (.popped s.taken.length handle) }
  | resume (k handle : ℕ) (h : s.threads t = .resuming k handle) :
    Goes s t { s with
      resumed := s.resumed ++ [(k, handle)]
      threads := s.moved t .running }
  | fault (h : s.threads t = .popping) (hqueue : s.queue = []) : Goes s t { s with fault := true }

theorem goes_of_go (h : s.go t = some s') : s.Goes t s' := by
  cases hpoint : s.threads t with
  | idle => simp only [go, hpoint, reduceCtorEq] at h
  | notifying => simp only [go, hpoint, reduceCtorEq] at h
  | blocked => simp only [go, hpoint, reduceCtorEq] at h
  | returned => simp only [go, hpoint, reduceCtorEq] at h
  | pushing handle =>
    simp only [go, hpoint, Option.some.injEq] at h
    exact h ▸ .push handle hpoint
  | leaving =>
    simp only [go, hpoint, Option.some.injEq] at h
    refine h ▸ .walk _ _ ?_
    cases t <;> constructor <;> simp [hpoint, PoolThread.outside]
  | looping =>
    simp only [go, hpoint, Option.some.injEq] at h
    refine h ▸ .walk _ _ ?_
    cases s.stop <;> constructor <;> simp [hpoint]
  | locking =>
    simp only [go, hpoint, Option.ite_none_right_eq_some, Option.some.injEq] at h
    refine h.2 ▸ .walk _ _ ?_
    constructor <;> simp [hpoint, h.1]
  | waking =>
    simp only [go, hpoint, Option.ite_none_right_eq_some, Option.some.injEq] at h
    refine h.2 ▸ .walk _ _ ?_
    constructor <;> simp [hpoint, h.1]
  | testing =>
    simp only [go, hpoint, Option.some.injEq] at h
    refine h ▸ .walk _ _ ?_
    -- the wait is left when its predicate is true
    by_cases hpredicate : s.queue ≠ [] ∨ s.stop
    · rw [if_pos hpredicate]
      constructor <;> simp [hpoint, hpredicate]
    · rw [if_neg hpredicate]
      obtain ⟨hqueue, hstop⟩ := not_or.mp hpredicate
      constructor <;> simp [hpoint, not_not.mp hqueue, hstop]
  | blocking =>
    simp only [go, hpoint, Option.some.injEq] at h
    refine h ▸ .walk _ _ ?_
    constructor <;> simp [hpoint]
  | passed =>
    simp only [go, hpoint] at h
    by_cases hstop : s.stop
    · rw [if_pos hstop] at h
      refine Option.some.inj h ▸ .walk _ _ ?_
      constructor <;> simp [hpoint]
    · rw [if_neg hstop] at h
      refine Option.some.inj h ▸ .walk _ _ ?_
      constructor <;> simp [hpoint, hstop]
  | popping =>
    simp only [go, hpoint] at h
    split at h
    case h_1 hqueue => exact Option.some.inj h ▸ .fault hpoint hqueue
    case h_2 handle queue hqueue => exact Option.some.inj h ▸ .pop handle queue hpoint hqueue
  | popped k handle =>
    simp only [go, hpoint, Option.some.injEq] at h
    refine h ▸ .walk _ _ ?_
    constructor <;> simp [hpoint]
  | resuming k handle =>
    simp only [go, hpoint, Option.some.injEq] at h
    exact h ▸ .resume k handle hpoint
  | running =>
    simp only [go, hpoint, Option.some.injEq] at h
    refine h ▸ .walk _ _ ?_
    constructor <;> simp [hpoint]

/-! ## The invariant -/

/-- **What is in the queue, in a thread's hand, and resumed.** -/
structure Sound (s : PoolState n) : Prop where
  locked : Guards (fun _ => s.mutex) PoolPoint.holds s.threads
  conserved : s.enqueued = s.taken ++ s.queue
  predicate : ∀ t, s.threads t = .passed → s.queue ≠ [] ∨ s.stop
  nonempty : ∀ t, s.threads t = .popping → s.queue ≠ []
  inHand : ∀ t r, (s.threads t).inHand = some r →
    s.taken[r.1]? = some r.2 ∧ r.1 ∉ s.resumed.map Prod.fst
  distinct : ∀ t u r r', (s.threads t).inHand = some r → (s.threads u).inHand = some r' →
    r.1 = r'.1 → t = u
  resumed : ∀ r ∈ s.resumed, s.taken[r.1]? = some r.2
  once : (s.resumed.map Prod.fst).Nodup
  noFault : s.fault = false

theorem Sound.keepsWork (h : s.Sound) : s.KeepsWork where
  conserved := h.conserved
  once := by
    refine ⟨h.once, fun r hr => ?_⟩
    have htaken := h.resumed r hr
    rw [h.conserved, List.getElem?_append_left (List.getElem?_eq_some_iff.mp htaken).1]
    exact htaken
  nonempty := h.nonempty
  noFault := h.noFault

theorem sound_init (n : ℕ) : (poolSystem n).init.Sound where
  locked t _ h := by cases t <;> cases h
  conserved := rfl
  predicate t h := by cases t <;> cases h
  nonempty t h := by cases t <;> cases h
  inHand t _ h := by cases t <;> cases h
  distinct t _ _ _ h := by cases t <;> cases h
  resumed _ h := nomatch h
  once := List.nodup_nil
  noFault := rfl

/-! ## The lock -/

theorem update_unit {α : Type*} (a b : α) :
    Function.update (fun _ : Unit => a) () b = fun _ => b :=
  Function.update_eq_const_of_subsingleton () b _

theorem locked_take {point : PoolPoint} (h : s.Sound) (hfree : s.mutex = none)
    (hpoint : point.holds = some ()) :
    Guards (fun _ => some t) PoolPoint.holds (s.moved t point) := by
  rw [← update_unit s.mutex]
  exact h.locked.acquire hfree hpoint

theorem locked_give {point : PoolPoint} (h : s.Sound) (hholds : (s.threads t).holds = some ())
    (hpoint : point.holds = none) :
    Guards (fun _ => none) PoolPoint.holds (s.moved t point) := by
  rw [← update_unit s.mutex]
  exact h.locked.release hholds hpoint

theorem Walks.locked {mutex : Option (PoolThread n)} {point : PoolPoint}
    (hwalks : s.Walks t mutex point) (h : s.Sound) :
    Guards (fun _ => mutex) PoolPoint.holds (s.moved t point) := by
  rcases hwalks.lock with ⟨rfl, hkeep⟩ | ⟨rfl, hfree, hholds⟩ | ⟨rfl, hholds, hfree⟩
  · exact h.locked.move hkeep
  · exact locked_take h hfree hholds
  · exact locked_give h hholds hfree

/-- Who is woken has no lock. -/
theorem holds_wokenAll : (s.wokenAll t).holds = (s.threads t).holds := by
  by_cases ht : s.threads t = .blocked
  · rw [wokenAll, if_pos ht, ht]
    rfl
  · rw [wokenAll, if_neg ht]

/-- Who is anywhere else was there before. -/
theorem of_wokenAll_eq {point : PoolPoint} (h : s.wokenAll t = point) (hne : point ≠ .waking) :
    s.threads t = point := by
  by_cases ht : s.threads t = .blocked
  · rw [wokenAll, if_pos ht] at h
    exact absurd h.symm hne
  · rwa [wokenAll, if_neg ht] at h

/-- Nobody else is under the lock. -/
theorem Sound.eq_of_holds (h : s.Sound) {u : PoolThread n} {point point' : PoolPoint}
    (ht : s.threads t = point) (hu : s.threads u = point') (hpoint : point.holds = some ())
    (hpoint' : point'.holds = some ()) : u = t :=
  h.locked.unique (by rw [hu, hpoint']) (by rw [ht, hpoint])

/-! ## Steps that leave the queue alone -/

/-- Threads may go on as long as those that leave the wait have found it true, and none has
something new in its hand. -/
theorem Sound.of_threads (h : s.Sound) {notifiedAll : Bool} {mutex : Option (PoolThread n)}
    {threads : PoolThread n → PoolPoint}
    (hlocked : Guards (fun _ => mutex) PoolPoint.holds threads)
    (hpassed : ∀ t, threads t = .passed → s.threads t = .passed ∨ s.queue ≠ [] ∨ s.stop)
    (hpopping : ∀ t, threads t = .popping → s.threads t = .popping ∨ s.queue ≠ [])
    (hinHand : ∀ t r, (threads t).inHand = some r → (s.threads t).inHand = some r) :
    Sound { s with notifiedAll, mutex, threads } where
  locked := hlocked
  conserved := h.conserved
  predicate t ht := (hpassed t ht).elim (h.predicate t) id
  nonempty t ht := (hpopping t ht).elim (h.nonempty t) id
  inHand t r hr := h.inHand t r (hinHand t r hr)
  distinct t u r r' hr hr' := h.distinct t u r r' (hinHand t r hr) (hinHand u r' hr')
  resumed := h.resumed
  once := h.once
  noFault := h.noFault

/-- …one of them, for instance. -/
theorem Sound.of_moved (h : s.Sound) {mutex : Option (PoolThread n)} {point : PoolPoint}
    (hlocked : Guards (fun _ => mutex) PoolPoint.holds (s.moved t point))
    (hpassed : point = .passed → s.queue ≠ [] ∨ s.stop) (hpopping : point = .popping → s.queue ≠ [])
    (hinHand : ∀ r, point.inHand = some r → (s.threads t).inHand = some r) :
    Sound { s with mutex, threads := s.moved t point } := by
  refine h.of_threads hlocked (fun u hu => ?_) (fun u hu => ?_) fun u r hr => ?_
  · rcases eq_or_ne u t with rfl | hne
    · rw [moved, Function.update_self] at hu
      exact Or.inr (hpassed hu)
    · rw [moved, Function.update_of_ne hne] at hu
      exact Or.inl hu
  · rcases eq_or_ne u t with rfl | hne
    · rw [moved, Function.update_self] at hu
      exact Or.inr (hpopping hu)
    · rw [moved, Function.update_of_ne hne] at hu
      exact Or.inl hu
  · rcases eq_or_ne u t with rfl | hne
    · rw [moved, Function.update_self] at hr
      exact hinHand r hr
    · rwa [moved, Function.update_of_ne hne] at hr

/-! ## Steps of the queue -/

/-- A handle is put in. -/
theorem Sound.push (h : s.Sound) {handle : ℕ} (ht : s.threads t = .pushing handle) : Sound { s with
    queue := s.queue ++ [handle]
    enqueued := s.enqueued ++ [handle]
    threads := s.moved t .notifying } := by
  have hmoved : ∀ u point, point ≠ .notifying → s.moved t .notifying u = point →
      s.threads u = point := fun u point hne hu => (of_update_eq hu hne.symm).2
  have hinHand : ∀ u r, (s.moved t .notifying u).inHand = some r →
      (s.threads u).inHand = some r := by
    intro u r hr
    rcases eq_or_ne u t with rfl | hne
    · rw [moved, Function.update_self] at hr
      cases hr
    · rwa [moved, Function.update_of_ne hne] at hr
  refine ⟨h.locked.move (by rw [ht]; rfl), ?_, fun u hu => Or.inl (List.concat_ne_nil _ _),
    fun u hu => List.concat_ne_nil _ _, fun u r hr => h.inHand u r (hinHand u r hr),
    fun u v r r' hr hr' => h.distinct u v r r' (hinHand u r hr) (hinHand v r' hr'), h.resumed,
    h.once, h.noFault⟩
  rw [h.conserved, List.append_assoc]

/-- **The first one is taken out** and is in the thread's hand. -/
theorem Sound.pop (h : s.Sound) {handle : ℕ} {queue : List ℕ} (ht : s.threads t = .popping)
    (hqueue : s.queue = handle :: queue) : Sound { s with
      queue := queue
      taken := s.taken ++ [handle]
      threads := s.moved t (.popped s.taken.length handle) } := by
  have hlt : ∀ {r : ℕ × ℕ}, s.taken[r.1]? = some r.2 → r.1 < s.taken.length := fun hr =>
    (List.getElem?_eq_some_iff.mp hr).1
  have hold : ∀ {r : ℕ × ℕ}, s.taken[r.1]? = some r.2 → (s.taken ++ [handle])[r.1]? = some r.2 :=
    fun hr => (List.getElem?_append_left (hlt hr)).trans hr
  have hnotMem : s.taken.length ∉ s.resumed.map Prod.fst := by
    rintro hmem
    obtain ⟨r, hr, heq⟩ := List.mem_map.mp hmem
    exact absurd (hlt (h.resumed r hr)) (by omega)
  -- what is in a hand is what was there, or the new one
  have hinHand : ∀ u r, (s.moved t (.popped s.taken.length handle) u).inHand = some r →
      u = t ∧ r = (s.taken.length, handle) ∨ u ≠ t ∧ (s.threads u).inHand = some r := by
    intro u r hr
    rcases eq_or_ne u t with rfl | hne
    · rw [moved, Function.update_self] at hr
      exact Or.inl ⟨rfl, (Option.some.inj hr).symm⟩
    · rw [moved, Function.update_of_ne hne] at hr
      exact Or.inr ⟨hne, hr⟩
  refine ⟨h.locked.move (by rw [ht]; rfl), ?_, fun u hu => ?_, fun u hu => ?_, fun u r hr => ?_,
    fun u v r r' hr hr' heq => ?_, fun r hr => hold (h.resumed r hr), h.once, h.noFault⟩
  · rw [h.conserved, hqueue, List.append_assoc]
    rfl
  · obtain ⟨hne, hu⟩ := of_update_eq hu nofun
    exact absurd (h.eq_of_holds ht hu rfl rfl) hne
  · obtain ⟨hne, hu⟩ := of_update_eq hu nofun
    exact absurd (h.eq_of_holds ht hu rfl rfl) hne
  · rcases hinHand u r hr with ⟨-, rfl⟩ | ⟨-, hr⟩
    · exact ⟨List.getElem?_concat_length, hnotMem⟩
    · exact (h.inHand u r hr).imp_left hold
  · rcases hinHand u r hr with ⟨hu, hnew⟩ | ⟨-, hold⟩
    · rcases hinHand v r' hr' with ⟨hv, -⟩ | ⟨-, hold'⟩
      · exact hu.trans hv.symm
      · have := hlt (h.inHand v r' hold').1
        rw [← heq, hnew] at this
        exact absurd this (Nat.lt_irrefl _)
    · rcases hinHand v r' hr' with ⟨-, hnew'⟩ | ⟨-, hold'⟩
      · have := hlt (h.inHand u r hold).1
        rw [heq, hnew'] at this
        exact absurd this (Nat.lt_irrefl _)
      · exact h.distinct u v r r' hold hold' heq

/-- **What is in a thread's hand is resumed**, and is then in nobody's. -/
theorem Sound.resume (h : s.Sound) {k handle : ℕ} (ht : s.threads t = .resuming k handle) :
    Sound { s with
      resumed := s.resumed ++ [(k, handle)]
      threads := s.moved t .running } := by
  have htaken : (s.threads t).inHand = some (k, handle) := by rw [ht]; rfl
  have hinHand : ∀ u r, (s.moved t .running u).inHand = some r →
      u ≠ t ∧ (s.threads u).inHand = some r := by
    intro u r hr
    rcases eq_or_ne u t with rfl | hne
    · rw [moved, Function.update_self] at hr
      cases hr
    · rw [moved, Function.update_of_ne hne] at hr
      exact ⟨hne, hr⟩
  refine ⟨h.locked.move (by rw [ht]; rfl), h.conserved,
    fun u hu => h.predicate u (of_update_eq hu nofun).2,
    fun u hu => h.nonempty u (of_update_eq hu nofun).2, fun u r hr => ?_,
    fun u v r r' hr hr' => h.distinct u v r r' (hinHand u r hr).2 (hinHand v r' hr').2,
    fun r hr => ?_, ?_, h.noFault⟩
  · obtain ⟨hne, hr⟩ := hinHand u r hr
    obtain ⟨hget, hnot⟩ := h.inHand u r hr
    refine ⟨hget, fun hmem => ?_⟩
    rw [List.map_append, List.mem_append] at hmem
    rcases hmem with hmem | hmem
    · exact hnot hmem
    · exact hne (h.distinct u t r (k, handle) hr htaken (List.mem_singleton.mp hmem))
  · rcases List.mem_append.mp hr with hr | hr
    · exact h.resumed r hr
    · obtain rfl := List.mem_singleton.mp hr
      exact (h.inHand t (k, handle) htaken).1
  · rw [List.map_append]
    exact List.nodup_append.mpr ⟨h.once, List.nodup_singleton _, fun a ha b hb heq =>
      (h.inHand t (k, handle) htaken).2 (List.mem_singleton.mp hb ▸ heq ▸ ha)⟩

/-! ## Every step -/

/-- **A thread's own steps**: where it was not for a stop that the wait was left, it was for the
queue. -/
theorem sound_of_go (h : s.Sound) (hstep : s.go t = some s') : s'.Sound := by
  cases goes_of_go hstep with
  | walk mutex point hwalks =>
    refine h.of_moved (hwalks.locked h) hwalks.passed (fun hpoint => ?_) hwalks.inHand
    obtain ⟨hpassed, hstop⟩ := hwalks.popping hpoint
    exact (h.predicate t hpassed).resolve_right hstop
  | push handle ht => exact h.push ht
  | pop handle queue ht hqueue => exact h.pop ht hqueue
  | resume k handle ht => exact h.resume ht
  | fault ht hqueue => exact absurd hqueue (h.nonempty t ht)

/-- A sleeper wakes. -/
theorem Sound.woken (h : s.Sound) {i : Fin n} (hblocked : s.threads (.worker i) = .blocked) :
    Sound { s with threads := s.moved (.worker i) .waking } :=
  h.of_moved (h.locked.move (by rw [hblocked]; rfl)) nofun nofun nofun

/-- The notification has been sent. -/
theorem Sound.notified (h : s.Sound) (ht : s.threads t = .notifying) :
    Sound { s with threads := s.moved t .leaving } :=
  h.of_moved (h.locked.move (by rw [ht]; rfl)) nofun nofun nofun

/-- All sleepers wake. -/
theorem Sound.wokenAll (h : s.Sound) :
    Sound { s with notifiedAll := true, threads := s.wokenAll } :=
  h.of_threads (fun t k ht => h.locked t k (holds_wokenAll ▸ ht))
    (fun _ ht => Or.inl (of_wokenAll_eq ht nofun)) (fun _ ht => Or.inl (of_wokenAll_eq ht nofun))
    fun t r hr => by
      by_cases ht : s.threads t = .blocked
      · rw [PoolState.wokenAll, if_pos ht] at hr
        cases hr
      · rwa [PoolState.wokenAll, if_neg ht] at hr

/-- **Every step keeps it.** -/
theorem sound_of_step {a : PoolAction n} (h : s.Sound) (hstep : s.step a = some s') :
    s'.Sound := by
  cases a with
  | enqueue t handle =>
    obtain ⟨⟨-, hfree⟩, heq⟩ := Option.ite_none_right_eq_some.mp hstep
    exact Option.some.inj heq ▸ h.of_moved (locked_take h hfree rfl) nofun nofun nofun
  | go t => exact sound_of_go h hstep
  | notifyOne t woken =>
    cases woken with
    | none =>
      obtain ⟨⟨ht, -⟩, heq⟩ := Option.ite_none_right_eq_some.mp hstep
      exact Option.some.inj heq ▸ h.notified ht
    | some i =>
      obtain ⟨⟨ht, hi⟩, heq⟩ := Option.ite_none_right_eq_some.mp hstep
      obtain rfl := Option.some.inj heq
      have hne : PoolThread.worker i ≠ t := fun heq => by cases (heq ▸ hi).symm.trans ht
      exact (h.notified ht).woken ((Function.update_of_ne hne _ _).trans hi)
  | wake i =>
    obtain ⟨hi, heq⟩ := Option.ite_none_right_eq_some.mp hstep
    exact Option.some.inj heq ▸ h.woken hi
  | requestStop =>
    obtain ⟨-, heq⟩ := Option.ite_none_left_eq_some.mp hstep
    obtain rfl := Option.some.inj heq
    exact ⟨h.locked, h.conserved, fun t ht => Or.inr rfl, h.nonempty, h.inHand, h.distinct,
      h.resumed, h.once, h.noFault⟩
  | notifyAll =>
    obtain ⟨-, heq⟩ := Option.ite_none_right_eq_some.mp hstep
    exact Option.some.inj heq ▸ h.wokenAll

end PoolState

/-- **No work is lost or repeated**, whatever the threads do. -/
theorem forall_keepsWork (n : ℕ) (actions : List (PoolAction n)) :
    ∀ s ∈ (poolSystem n).visited actions, s.KeepsWork := by
  intro s hs
  exact (System.forall_visited PoolState.Sound (PoolState.sound_init n)
    (fun _ _ _ h hstep => PoolState.sound_of_step h hstep) actions s hs).keepsWork

/-- The only worker resumes a coroutine that puts itself into the queue again, while another one is
put in. -/
def reschedules : List (PoolAction 1) :=
  let worker := .worker ⟨0, Nat.one_pos⟩
  let caller := .caller 0
  [.enqueue caller 7, .go caller, .notifyOne caller none, .go caller, .go worker, .go worker,
    .go worker, .go worker, .go worker, .go worker, .go worker, .enqueue caller 8, .go caller,
    .notifyOne caller none, .go caller, .enqueue worker 7, .go worker, .notifyOne worker none]

/-- It has been taken once and stands in the queue once, behind the other. -/
theorem keepsWork_reschedules : ∃ s, (poolSystem 1).run reschedules = some s ∧ s.KeepsWork ∧
    s.taken = [7] ∧ s.queue = [8, 7] ∧ s.resumed = [(0, 7)] := by
  obtain ⟨s, hs⟩ : ∃ s, (poolSystem 1).run reschedules = some s := ⟨_, rfl⟩
  refine ⟨s, hs, forall_keepsWork 1 reschedules s ((poolSystem 1).mem_visited_of_run hs), ?_⟩
  rw [← Option.some.inj hs]
  exact ⟨rfl, rfl, rfl⟩

end YServer
