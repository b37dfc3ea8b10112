import YServer.BaseNet.Shutdown
import Mathlib.Data.Fintype.Basic

/-!
# BaseNet/PoolRest — what the pool comes to when nothing more is put in

Every step a thread takes uses something up: it is nearer to its sleep, or takes a handle out of the
queue, which has been put in once.

    pushing ▸ notifying ▸ leaving ▸ ┐
    popped ▸ resuming ▸ running ▸ looping ▸ locking ▸ testing ▸ passed ▸ popping
                                                          └▸ blocking ▸ blocked

A resumed coroutine may keep its thread, as an event loop does.  So with no further `enqueue` and
before a stop the threads come to a stand, whatever order they run in, and then every worker sleeps
or is in a coroutine it resumed, and there is no work behind a sleeper — and where the coroutines
come back, all work has been resumed and every worker sleeps (`drains_of_run`).
-/

namespace YServer

open Machinery

/-! ## What is left to be done -/

/-- The steps a thread has before it at a point, until it sleeps, pops or is outside. -/
@[simp] def PoolPoint.rank : PoolPoint → ℕ
  | .idle | .blocked | .returned => 0
  | .blocking | .popping => 1
  | .passed => 2
  | .testing => 3
  | .locking | .waking => 4
  | .looping => 5
  | .running => 6
  | .resuming _ _ | .leaving => 7
  | .popped _ _ => 8
  -- a notification gets a sleeper up
  | .notifying => 12
  -- and a push puts in a handle, for which somebody goes round once more
  | .pushing _ => 21

/-- In `enqueue`. -/
@[simp] def PoolPoint.InEnqueue : PoolPoint → Prop
  | .pushing _ | .notifying | .leaving => True
  | _ => False

theorem PoolPoint.InEnqueue.holds {point : PoolPoint} (h : point.InEnqueue) :
    point.holds = some () := by
  cases point <;> first | rfl | exact h.elim

/-- Who will test the predicate of the wait, or notify somebody who will. -/
@[simp] def PoolPoint.seeks : PoolPoint → ℕ
  | .notifying | .looping | .locking | .testing | .waking | .passed | .popping => 1
  | _ => 0

/-- The steps of a thread, and the notification it sends.  The step of a thread in a coroutine is
that the coroutine comes back. -/
@[simp] def PoolAction.Own {n : ℕ} : PoolAction n → Prop
  | .go _ | .notifyOne _ _ => True
  | _ => False

namespace PoolState

variable {n : ℕ} (s : PoolState n)

/-- No coroutine comes back. -/
def NobodyBack : PoolAction n → Prop
  | .go t => s.threads t ≠ .running
  | _ => True

instance (a : PoolAction n) : Decidable (s.NobodyBack a) :=
  match a with
  | .go _ => inferInstanceAs (Decidable (_ ≠ _))
  | .notifyOne _ _ => inferInstanceAs (Decidable True)
  | .enqueue _ _ => inferInstanceAs (Decidable True)
  | .wake _ => inferInstanceAs (Decidable True)
  | .requestStop => inferInstanceAs (Decidable True)
  | .notifyAll => inferInstanceAs (Decidable True)

/-- Outside the pool's functions nobody but its workers has anything to do, so only a caller under
the lock counts. -/
def callerWeight (w : PoolPoint → ℕ) : ℕ :=
  match s.mutex with
  | some (.caller j) => w (s.threads (.caller j))
  | _ => 0

/-- What the threads weigh, by where they are. -/
def weigh (w : PoolPoint → ℕ) : ℕ := ∑ i : Fin n, w (s.threads (.worker i)) + s.callerWeight w

def cost : ℕ := s.weigh PoolPoint.rank + 8 * s.queue.length

/-- Where somebody sleeps, others will see to all the work. -/
def Attended : Prop :=
  ¬ s.stop → (∃ i, s.threads (.worker i) = .blocked) → s.queue.length ≤ s.weigh PoolPoint.seeks

/-- **Every worker sleeps or is in a coroutine**, the queue is empty unless all are in coroutines,
and what is not in the queue has been resumed. -/
structure Settled : Prop where
  workers : ∀ i, s.threads (.worker i) = .blocked ∨ s.threads (.worker i) = .running
  queue : s.queue = [] ∨ ∀ i, s.threads (.worker i) = .running
  conserved : s.enqueued = s.taken ++ s.queue
  resumed : (s.resumed.map Prod.fst).Perm (List.range s.taken.length)

/-- **All work has been resumed**, and every worker sleeps. -/
structure Drained : Prop where
  queue : s.queue = []
  resumed : (s.resumed.map Prod.fst).Perm (List.range s.enqueued.length)
  asleep : ∀ i, s.threads (.worker i) = .blocked

/-- What a thread is under the lock for, what becomes of what is taken, and who has returned. -/
structure Orderly : Prop where
  sound : s.Sound
  held : ∀ t, s.mutex = some t → (s.threads t).holds = some ()
  caller : ∀ j, s.threads (.caller j) = .idle ∨ (s.threads (.caller j)).InEnqueue
  worker : ∀ i, s.threads (.worker i) ≠ .idle
  returned : ∀ t, s.threads t = .returned → s.stop
  accounted : ∀ k < s.taken.length, k ∈ s.resumed.map Prod.fst ∨
    ∃ t handle, (s.threads t).inHand = some (k, handle)

theorem orderly_init (n : ℕ) : (poolSystem n).init.Orderly where
  sound := sound_init n
  held t h := by cases h
  caller j := Or.inl rfl
  worker i h := by cases h
  returned t h := by cases t <;> cases h
  accounted k h := absurd h (Nat.not_lt_zero k)

/-! ## A thread's own step -/

variable {s} {s' : PoolState n} {t : PoolThread n}

/-- **What a thread's own step uses up**, and what becomes of the lock and of what is in its
hand. -/
structure Spends (s : PoolState n) (t : PoolThread n) (point : PoolPoint) (s' : PoolState n) :
    Prop where
  threads : s'.threads = s.moved t point
  stop : s'.stop = s.stop
  rank : point.rank + 8 * s'.queue.length < (s.threads t).rank + 8 * s.queue.length
  lock : s'.mutex = s.mutex ∧ (s.threads t).holds = point.holds ∨
    (s'.mutex = some t ∧ s.mutex = none ∧ point.holds = some ()) ∨
    s'.mutex = none ∧ (s.threads t).holds = some () ∧ point.holds = none
  source : s.threads t ≠ .idle
  idle : point = .idle → t.outside = .idle
  enqueue : (s.threads t).InEnqueue → point = t.outside ∨ point.InEnqueue
  returned : point = .returned → s.stop
  resumed : s.resumed ⊆ s'.resumed
  taken : ∀ k < s'.taken.length, k < s.taken.length ∨ ∃ handle, point.inHand = some (k, handle)
  inHand : ∀ r, (s.threads t).inHand = some r → point.inHand = some r ∨ r ∈ s'.resumed
  seeks : ¬ s.stop → (s.threads t = .blocking ∧ s'.queue = s.queue) ∨ s'.queue = [] ∨
    s'.queue.length + (s.threads t).seeks ≤ s.queue.length + point.seeks
  blocked : point = .blocked → s.threads t = .blocking

theorem spends_of_go (h : s.Sound) (hgo : s.go t = some s') : ∃ point, s.Spends t point s' := by
  cases hpoint : s.threads t with
  | idle => simp only [go, hpoint, reduceCtorEq] at hgo
  | notifying => simp only [go, hpoint, reduceCtorEq] at hgo
  | blocked => simp only [go, hpoint, reduceCtorEq] at hgo
  | returned => simp only [go, hpoint, reduceCtorEq] at hgo
  | pushing handle =>
    simp only [go, hpoint, Option.some.injEq] at hgo
    subst hgo
    refine ⟨.notifying, ?_⟩
    constructor <;> simp [hpoint]
    omega
  | leaving =>
    simp only [go, hpoint, Option.some.injEq] at hgo
    subst hgo
    refine ⟨t.outside, ?_⟩
    cases t <;> constructor <;> simp [hpoint, PoolThread.outside]
  | looping =>
    simp only [go, hpoint, Option.some.injEq] at hgo
    subst hgo
    refine ⟨if s.stop then .returned else .locking, ?_⟩
    constructor <;> cases s.stop <;> simp [hpoint]
  | locking =>
    simp only [go, hpoint, Option.ite_none_right_eq_some, Option.some.injEq] at hgo
    obtain ⟨hfree, rfl⟩ := hgo
    refine ⟨.testing, ?_⟩
    constructor <;> simp [hpoint, hfree]
  | waking =>
    simp only [go, hpoint, Option.ite_none_right_eq_some, Option.some.injEq] at hgo
    obtain ⟨hfree, rfl⟩ := hgo
    refine ⟨.testing, ?_⟩
    constructor <;> simp [hpoint, hfree]
  | testing =>
    simp only [go, hpoint, Option.some.injEq] at hgo
    subst hgo
    by_cases hpredicate : s.queue ≠ [] ∨ s.stop
    · refine ⟨.passed, ?_⟩
      constructor <;> simp [hpoint, hpredicate]
    · have hempty : s.queue = [] := not_not.mp (not_or.mp hpredicate).1
      have hstop : s.stop = false := Bool.eq_false_iff.mpr (not_or.mp hpredicate).2
      refine ⟨.blocking, ?_⟩
      constructor <;> simp [hpoint, hempty, hstop]
  | blocking =>
    simp only [go, hpoint, Option.some.injEq] at hgo
    subst hgo
    refine ⟨.blocked, ?_⟩
    constructor <;> simp [hpoint]
  | passed =>
    simp only [go, hpoint] at hgo
    by_cases hstop : s.stop
    · rw [if_pos hstop] at hgo
      obtain rfl := Option.some.inj hgo
      refine ⟨.returned, ?_⟩
      constructor <;> simp [hpoint, hstop]
    · rw [if_neg hstop] at hgo
      obtain rfl := Option.some.inj hgo
      refine ⟨.popping, ?_⟩
      constructor <;> simp [hpoint]
  | popping =>
    obtain ⟨handle, queue, hqueue⟩ := List.exists_cons_of_ne_nil (h.nonempty t hpoint)
    simp only [go, hpoint, hqueue, Option.some.injEq] at hgo
    subst hgo
    refine ⟨.popped s.taken.length handle, ?_⟩
    constructor <;> simp [hpoint, hqueue]
    · omega
    · omega
  | popped k handle =>
    simp only [go, hpoint, Option.some.injEq] at hgo
    subst hgo
    refine ⟨.resuming k handle, ?_⟩
    constructor <;> simp [hpoint]
    exact fun _ => Or.inl
  | resuming k handle =>
    simp only [go, hpoint, Option.some.injEq] at hgo
    subst hgo
    refine ⟨.running, ?_⟩
    constructor <;> simp [hpoint]
  | running =>
    simp only [go, hpoint, Option.some.injEq] at hgo
    subst hgo
    refine ⟨.looping, ?_⟩
    constructor <;> simp [hpoint]

theorem Spends.orderly {point : PoolPoint} (hspends : s.Spends t point s') (h : s.Orderly)
    (hsound : s'.Sound) : s'.Orderly where
  sound := hsound
  held u hu := by
    rw [hspends.threads]
    rcases eq_or_ne u t with rfl | hne
    · rw [moved, Function.update_self]
      rcases hspends.lock with ⟨heq, hholds⟩ | ⟨-, -, hholds⟩ | ⟨hfree, -, -⟩
      · rw [← hholds]
        exact h.held u (heq ▸ hu)
      · exact hholds
      · cases hfree.symm.trans hu
    · rw [moved, Function.update_of_ne hne]
      rcases hspends.lock with ⟨heq, -⟩ | ⟨htaken, -, -⟩ | ⟨hfree, -, -⟩
      · exact h.held u (heq ▸ hu)
      · exact absurd (Option.some.inj (hu.symm.trans htaken)) hne
      · cases hfree.symm.trans hu
  caller j := by
    rw [hspends.threads]
    rcases eq_or_ne (.caller j) t with rfl | hne
    · rw [moved, Function.update_self]
      exact hspends.enqueue ((h.caller j).resolve_left hspends.source)
    · rw [moved, Function.update_of_ne hne]
      exact h.caller j
  worker i hi := by
    rw [hspends.threads] at hi
    rcases eq_or_ne (.worker i) t with rfl | hne
    · rw [moved, Function.update_self] at hi
      cases hspends.idle hi
    · rw [moved, Function.update_of_ne hne] at hi
      exact h.worker i hi
  returned u hu := by
    rw [hspends.stop]
    rw [hspends.threads] at hu
    rcases eq_or_ne u t with rfl | hne
    · rw [moved, Function.update_self] at hu
      exact hspends.returned hu
    · rw [moved, Function.update_of_ne hne] at hu
      exact h.returned u hu
  accounted k hk := by
    rw [hspends.threads]
    rcases hspends.taken k hk with hold | ⟨handle, hhand⟩
    · rcases h.accounted k hold with hdone | ⟨u, handle, hu⟩
      · obtain ⟨r, hr, rfl⟩ := List.mem_map.mp hdone
        exact Or.inl (List.mem_map_of_mem (hspends.resumed hr))
      · rcases eq_or_ne u t with rfl | hne
        · rcases hspends.inHand _ hu with hhand | hdone
          · exact Or.inr ⟨u, handle, by rw [moved, Function.update_self, hhand]⟩
          · exact Or.inl (List.mem_map.mpr ⟨_, hdone, rfl⟩)
        · exact Or.inr ⟨u, handle, by rw [moved, Function.update_of_ne hne, hu]⟩
    · exact Or.inr ⟨t, handle, by rw [moved, Function.update_self, hhand]⟩

/-! ## The other steps -/

/-- **Threads enter `enqueue`, go on in it, or wake up.** -/
structure Stirred (s s' : PoolState n) : Prop where
  threads : ∀ t, s'.threads t = s.threads t ∨
    ((s.threads t).inHand = none ∧ (s'.threads t).InEnqueue) ∨
    s.threads t = .blocked ∧ s'.threads t = .waking
  mutex : ∀ t, s'.mutex = some t → s.mutex = some t ∨ (s'.threads t).InEnqueue
  stop : s.stop → s'.stop
  taken : s'.taken = s.taken
  resumed : s'.resumed = s.resumed

theorem Stirred.orderly (hstirred : s.Stirred s') (h : s.Orderly) (hsound : s'.Sound) :
    s'.Orderly where
  sound := hsound
  held t ht := by
    rcases hstirred.threads t with heq | ⟨-, hin⟩ | ⟨hblocked, -⟩
    · rcases hstirred.mutex t ht with hold | hin
      · rw [heq]
        exact h.held t hold
      · exact hin.holds
    · exact hin.holds
    · rcases hstirred.mutex t ht with hold | hin
      · cases hblocked ▸ h.held t hold
      · exact hin.holds
  caller j := by
    rcases hstirred.threads (.caller j) with heq | ⟨-, hin⟩ | ⟨hblocked, -⟩
    · rw [heq]
      exact h.caller j
    · exact Or.inr hin
    · rcases h.caller j with hidle | hin
      · cases hidle.symm.trans hblocked
      · exact (hblocked ▸ hin).elim
  worker i hi := by
    rcases hstirred.threads (.worker i) with heq | ⟨-, hin⟩ | ⟨-, hwaking⟩
    · exact h.worker i (heq ▸ hi)
    · exact (hi ▸ hin).elim
    · cases hi.symm.trans hwaking
  returned t ht := by
    rcases hstirred.threads t with heq | ⟨-, hin⟩ | ⟨-, hwaking⟩
    · exact hstirred.stop (h.returned t (heq ▸ ht))
    · exact (ht ▸ hin).elim
    · cases ht.symm.trans hwaking
  accounted k hk := by
    rw [hstirred.resumed]
    refine (h.accounted k (hstirred.taken ▸ hk)).imp_right fun ⟨t, handle, ht⟩ => ?_
    rcases hstirred.threads t with heq | ⟨hnone, -⟩ | ⟨hblocked, -⟩
    · exact ⟨t, handle, by rw [heq, ht]⟩
    · cases hnone.symm.trans ht
    · cases hblocked ▸ ht

/-- A thread gets to another point, and the lock stays with who has it or comes to the thread. -/
theorem stirred_moved {point : PoolPoint} {mutex : Option (PoolThread n)}
    (hpoint : (s.threads t).inHand = none ∧ point.InEnqueue ∨
      s.threads t = .blocked ∧ point = .waking)
    (hmutex : mutex = s.mutex ∨ mutex = some t ∧ point.InEnqueue) :
    s.Stirred { s with mutex, threads := s.moved t point } where
  threads u := by
    rcases eq_or_ne u t with rfl | hne
    · right
      change _ ∧ (Function.update s.threads u point u).InEnqueue ∨
        _ ∧ Function.update s.threads u point u = _
      rw [Function.update_self]
      exact hpoint
    · exact Or.inl (Function.update_of_ne hne _ _)
  mutex u hu := by
    rcases hmutex with rfl | ⟨rfl, hin⟩
    · exact Or.inl hu
    · obtain rfl := Option.some.inj hu
      right
      change (Function.update s.threads t point t).InEnqueue
      rwa [Function.update_self]
  stop := id
  taken := rfl
  resumed := rfl

/-- A notification that finds no sleeper, or before it wakes one. -/
theorem Orderly.notified (h : s.Orderly) (ht : s.threads t = .notifying) :
    Orderly { s with threads := s.moved t .leaving } :=
  (stirred_moved (Or.inl ⟨by rw [ht]; rfl, by simp⟩) (Or.inl rfl)).orderly h (h.sound.notified ht)

theorem Orderly.woken (h : s.Orderly) {i : Fin n} (hi : s.threads (.worker i) = .blocked) :
    Orderly { s with threads := s.moved (.worker i) .waking } :=
  (stirred_moved (Or.inr ⟨hi, rfl⟩) (Or.inl rfl)).orderly h (h.sound.woken hi)

/-- **Every step keeps it.** -/
theorem orderly_of_step {a : PoolAction n} (h : s.Orderly) (hstep : s.step a = some s') :
    s'.Orderly := by
  have hsound := sound_of_step h.sound hstep
  cases a with
  | go t =>
    obtain ⟨point, hspends⟩ := spends_of_go h.sound hstep
    exact hspends.orderly h hsound
  | enqueue t handle =>
    obtain ⟨⟨ht, -⟩, heq⟩ := Option.ite_none_right_eq_some.mp hstep
    obtain rfl := Option.some.inj heq
    refine (stirred_moved (Or.inl ⟨?_, by simp⟩) (Or.inr ⟨rfl, by simp⟩)).orderly h hsound
    rw [ht]
    cases t <;> rfl
  | notifyOne t woken =>
    cases woken with
    | none =>
      obtain ⟨⟨ht, -⟩, heq⟩ := Option.ite_none_right_eq_some.mp hstep
      exact Option.some.inj heq ▸ h.notified ht
    | some i =>
      obtain ⟨⟨ht, hi⟩, heq⟩ := Option.ite_none_right_eq_some.mp hstep
      obtain rfl := Option.some.inj heq
      have hne : PoolThread.worker i ≠ t := fun heq => by cases (heq ▸ hi).symm.trans ht
      exact (h.notified ht).woken ((Function.update_of_ne hne _ _).trans hi)
  | wake i =>
    obtain ⟨hi, heq⟩ := Option.ite_none_right_eq_some.mp hstep
    exact Option.some.inj heq ▸ h.woken hi
  | requestStop =>
    obtain ⟨-, heq⟩ := Option.ite_none_left_eq_some.mp hstep
    obtain rfl := Option.some.inj heq
    exact { h with sound := hsound, returned := fun _ _ => rfl }
  | notifyAll =>
    obtain ⟨-, heq⟩ := Option.ite_none_right_eq_some.mp hstep
    obtain rfl := Option.some.inj heq
    refine Stirred.orderly (s := s) ⟨fun t => ?_, fun _ => Or.inl, id, rfl, rfl⟩ h hsound
    by_cases ht : s.threads t = .blocked
    · exact Or.inr (Or.inr ⟨ht, if_pos ht⟩)
    · exact Or.inl (if_neg ht)

/-! ## What the threads weigh -/

section Weigh

variable (w : PoolPoint → ℕ)

/-- One worker's new point changes the sum by the difference. -/
theorem sum_worker (threads : PoolThread n → PoolPoint) (i : Fin n) (point : PoolPoint) :
    ∑ j, w (Function.update threads (.worker i) point (.worker j)) + w (threads (.worker i))
      = ∑ j, w (threads (.worker j)) + w point := by
  have hworker : Function.Injective (PoolThread.worker (n := n)) := fun _ _ => PoolThread.worker.inj
  have hcomp := Function.update_comp_eq_of_injective threads hworker i point
  rw [← sum_update_add (Finset.mem_univ i) w fun j => threads (.worker j)]
  exact congrArg (· + w (threads (.worker i)))
    (Finset.sum_congr rfl fun j _ => congrArg w (congrFun hcomp j))

/-- **A thread's new point weighs the difference**, whatever becomes of the lock. -/
theorem Orderly.weigh_add (h : s.Orderly) (hw : w .idle = 0) (t : PoolThread n) (point : PoolPoint)
    (hthreads : s'.threads = s.moved t point) (hsource : s.threads t ≠ .idle)
    (hcaller : (s.threads t).InEnqueue → point = t.outside ∨ point.InEnqueue)
    (hlock : s'.mutex = s.mutex ∧ (s.threads t).holds = point.holds ∨
      (s'.mutex = some t ∧ s.mutex = none ∧ point.holds = some ()) ∨
      s'.mutex = none ∧ (s.threads t).holds = some () ∧ point.holds = none) :
    s'.weigh w + w (s.threads t) = s.weigh w + w point := by
  have hown : (s.threads t).holds = some () → s.mutex = some t := h.sound.locked t ()
  rw [weigh, weigh, hthreads]
  cases t with
  | worker i =>
    have hsame : s'.callerWeight w = s.callerWeight w := by
      rw [callerWeight, callerWeight, hthreads]
      rcases hlock with ⟨heq, -⟩ | ⟨htaken, hfree, -⟩ | ⟨hfree, hholds, -⟩
      · rw [heq]
        cases s.mutex with
        | none => rfl
        | some u =>
          cases u with
          | worker => rfl
          | caller j => exact congrArg w (Function.update_of_ne (by simp) _ _)
      · rw [htaken, hfree]
      · rw [hfree, hown hholds]
    have hsum := sum_worker w s.threads i point
    rw [hsame, moved]
    omega
  | caller j =>
    have hin : (s.threads (.caller j)).InEnqueue := (h.caller j).resolve_left hsource
    have hmutex : s.mutex = some (.caller j) := hown hin.holds
    have hbefore : s.callerWeight w = w (s.threads (.caller j)) := by
      rw [callerWeight, hmutex]
    have hafter : s'.callerWeight w = w point := by
      rw [callerWeight, hthreads]
      rcases hlock with ⟨heq, -⟩ | ⟨-, hfree, -⟩ | ⟨hfree, -, hnone⟩
      · rw [heq, hmutex, moved]
        exact congrArg w (Function.update_self ..)
      · cases hmutex.symm.trans hfree
      · rw [hfree]
        rcases hcaller hin with rfl | hpoint
        · exact hw.symm
        · cases hpoint.holds.symm.trans hnone
    have hsum : ∑ i, w (s.moved (.caller j) point (.worker i))
        = ∑ i, w (s.threads (.worker i)) :=
      Finset.sum_congr rfl fun i _ => congrArg w (Function.update_of_ne (by simp) _ _)
    rw [hsum, hbefore, hafter]
    omega

theorem Spends.weigh_add {point : PoolPoint} (hspends : s.Spends t point s') (h : s.Orderly)
    (hw : w .idle = 0) : s'.weigh w + w (s.threads t) = s.weigh w + w point :=
  h.weigh_add w hw t point hspends.threads hspends.source hspends.enqueue hspends.lock

/-- A notification takes its sender on… -/
theorem Orderly.weigh_notified (h : s.Orderly) (hw : w .idle = 0) (ht : s.threads t = .notifying) :
    weigh { s with threads := s.moved t .leaving } w + w .notifying = s.weigh w + w .leaving := by
  have hadd : weigh { s with threads := s.moved t .leaving } w + _ = _ :=
    h.weigh_add w hw t .leaving rfl (by simp [ht]) (fun _ => Or.inr (by simp))
      (Or.inl ⟨rfl, by simp [ht]⟩)
  rwa [ht] at hadd

/-- …and whoever wakes up is on its way. -/
theorem Orderly.weigh_woken (h : s.Orderly) (hw : w .idle = 0) {i : Fin n}
    (hi : s.threads (.worker i) = .blocked) :
    weigh { s with threads := s.moved (.worker i) .waking } w + w .blocked
      = s.weigh w + w .waking := by
  have hadd : weigh { s with threads := s.moved (.worker i) .waking } w + _ = _ :=
    h.weigh_add w hw (.worker i) .waking rfl (by simp [hi]) (by simp [hi])
      (Or.inl ⟨rfl, by simp [hi]⟩)
  rwa [hi] at hadd

end Weigh

/-- A sleeper that is notified is not the thread that notifies it. -/
theorem blocked_of_notified {i : Fin n} (ht : s.threads t = .notifying)
    (hi : s.threads (.worker i) = .blocked) : s.moved t .leaving (.worker i) = .blocked := by
  have hne : PoolThread.worker i ≠ t := fun heq => by cases (heq ▸ hi).symm.trans ht
  exact (Function.update_of_ne hne _ _).trans hi

/-- **Every step of a thread uses something up.** -/
theorem cost_lt_of_own {a : PoolAction n} (h : s.Orderly) (ha : a.Own)
    (hstep : s.step a = some s') : s'.cost < s.cost := by
  cases a with
  | go t =>
    obtain ⟨point, hspends⟩ := spends_of_go h.sound hstep
    have hweigh := hspends.weigh_add PoolPoint.rank h rfl
    have hrank := hspends.rank
    rw [cost, cost]
    omega
  | notifyOne t woken =>
    cases woken with
    | none =>
      obtain ⟨⟨ht, -⟩, heq⟩ := Option.ite_none_right_eq_some.mp hstep
      obtain rfl := Option.some.inj heq
      have hweigh := h.weigh_notified PoolPoint.rank rfl ht
      simp only [PoolPoint.rank] at hweigh
      rw [cost, cost]
      change _ + 8 * s.queue.length < _
      omega
    | some i =>
      obtain ⟨⟨ht, hi⟩, heq⟩ := Option.ite_none_right_eq_some.mp hstep
      obtain rfl := Option.some.inj heq
      have hweigh := h.weigh_notified PoolPoint.rank rfl ht
      have hwoken : weigh { s with
          threads := Function.update (s.moved t .leaving) (.worker i) .waking } _ + _ = _ :=
        (h.notified ht).weigh_woken PoolPoint.rank rfl (blocked_of_notified ht hi)
      simp only [PoolPoint.rank] at hweigh hwoken
      rw [cost, cost]
      change _ + 8 * s.queue.length < _
      omega
  | enqueue t handle => exact ha.elim
  | wake i => exact ha.elim
  | requestStop => exact ha.elim
  | notifyAll => exact ha.elim

/-! ## Who sees to the work -/

theorem attended_init (n : ℕ) : (poolSystem n).init.Attended := fun _ ⟨_, hi⟩ => by cases hi

/-- Nobody falls asleep, and nothing is put in. -/
theorem Attended.of_le (ha : s.Attended) (hstop : s'.stop = s.stop) (hqueue : s'.queue = s.queue)
    (hblocked : ∀ t, s'.threads t = .blocked → s.threads t = .blocked)
    (hweigh : s.weigh PoolPoint.seeks ≤ s'.weigh PoolPoint.seeks) : s'.Attended := by
  rintro hs ⟨i, hi⟩
  rw [hqueue]
  exact (ha (hstop ▸ hs) ⟨i, hblocked _ hi⟩).trans hweigh

/-- **A thread's own step leaves no work behind a sleeper**: who pops takes some, and who falls
asleep leaves none. -/
theorem Spends.attended {point : PoolPoint} (hspends : s.Spends t point s') (h : s.Orderly)
    (hw : s.stop ∨ s.Watched) (ha : s.Attended) : s'.Attended := by
  rintro hstop ⟨i, hi⟩
  have hweigh := hspends.weigh_add PoolPoint.seeks h rfl
  rw [hspends.stop] at hstop
  have hwatched : s.Watched := hw.resolve_left hstop
  rcases hspends.seeks hstop with ⟨hblocking, hqueue⟩ | hqueue | hseeks
  · rw [hqueue, hwatched.blocking t hblocking]
    exact Nat.zero_le _
  · rw [hqueue]
    exact Nat.zero_le _
  · rw [hspends.threads] at hi
    rcases eq_or_ne (.worker i) t with rfl | hne
    · rw [moved, Function.update_self] at hi
      have hnone : s.queue.length = 0 :=
        List.length_eq_zero_iff.mpr (hwatched.blocking _ (hspends.blocked hi))
      have hpoint : point.seeks = 0 := by rw [hi]; rfl
      omega
    · rw [moved, Function.update_of_ne hne] at hi
      have hold := ha hstop ⟨i, hi⟩
      omega

/-- Who enters `enqueue` has not pushed yet. -/
theorem weigh_entered {handle : ℕ} (ht : s.threads t = t.outside) (hfree : s.mutex = none) :
    weigh { s with mutex := some t, threads := s.moved t (.pushing handle) } PoolPoint.seeks
      = s.weigh PoolPoint.seeks := by
  cases t with
  | worker i =>
    have hsum := sum_worker PoolPoint.seeks s.threads i (.pushing handle)
    rw [ht] at hsum
    simp only [weigh, callerWeight, hfree]
    exact hsum
  | caller j =>
    have hsum : ∑ i, (s.moved (.caller j) (.pushing handle) (.worker i)).seeks
        = ∑ i, (s.threads (.worker i)).seeks :=
      Finset.sum_congr rfl fun i _ => congrArg PoolPoint.seeks (Function.update_of_ne (by simp) _ _)
    simp only [weigh, callerWeight, hfree, hsum]
    rw [moved, Function.update_self]
    rfl

/-- **Every step leaves work only to those that are about.** -/
theorem attended_of_step {a : PoolAction n} (h : s.Orderly) (hw : s.stop ∨ s.Watched)
    (ha : s.Attended) (hstep : s.step a = some s') : s'.Attended := by
  cases a with
  | go t =>
    obtain ⟨point, hspends⟩ := spends_of_go h.sound hstep
    exact hspends.attended h hw ha
  | enqueue t handle =>
    obtain ⟨⟨ht, hfree⟩, heq⟩ := Option.ite_none_right_eq_some.mp hstep
    exact Option.some.inj heq ▸ ha.of_le rfl rfl (fun _ hu => (of_update_eq hu (by simp)).2)
      (weigh_entered ht hfree).ge
  | notifyOne t woken =>
    cases woken with
    | none =>
      -- nobody sleeps
      obtain ⟨⟨-, hawake⟩, heq⟩ := Option.ite_none_right_eq_some.mp hstep
      obtain rfl := Option.some.inj heq
      exact fun _ ⟨i, hi⟩ => absurd (of_update_eq hi (by simp)).2 (hawake i)
    | some i =>
      obtain ⟨⟨ht, hi⟩, heq⟩ := Option.ite_none_right_eq_some.mp hstep
      obtain rfl := Option.some.inj heq
      have hweigh := h.weigh_notified PoolPoint.seeks rfl ht
      have hwoken : weigh { s with
          threads := Function.update (s.moved t .leaving) (.worker i) .waking } _ + _ = _ :=
        (h.notified ht).weigh_woken PoolPoint.seeks rfl (blocked_of_notified ht hi)
      simp only [PoolPoint.seeks] at hweigh hwoken
      refine ha.of_le rfl rfl (fun _ hu => ?_) (by omega)
      exact (of_update_eq (of_update_eq hu (by simp)).2 (by simp)).2
  | wake i =>
    obtain ⟨hi, heq⟩ := Option.ite_none_right_eq_some.mp hstep
    obtain rfl := Option.some.inj heq
    have hwoken := h.weigh_woken PoolPoint.seeks rfl hi
    simp only [PoolPoint.seeks] at hwoken
    exact ha.of_le rfl rfl (fun _ hu => (of_update_eq hu (by simp)).2) (by omega)
  | requestStop =>
    obtain ⟨-, heq⟩ := Option.ite_none_left_eq_some.mp hstep
    obtain rfl := Option.some.inj heq
    exact fun hstop => absurd rfl hstop
  | notifyAll =>
    obtain ⟨⟨hs, -⟩, heq⟩ := Option.ite_none_right_eq_some.mp hstep
    obtain rfl := Option.some.inj heq
    exact fun hstop => absurd hs hstop

/-! ## Where no thread can take a step -/

section Rest

variable (h : s.Orderly) (hrest : ∀ a : PoolAction n, a.Own → s.NobodyBack a → s.step a = none)

include h hrest

/-- **Nobody has the lock**: whoever has it can go on. -/
theorem free_of_rest : s.mutex = none := by
  by_contra hmutex
  obtain ⟨t, ht⟩ := Option.ne_none_iff_exists'.mp hmutex
  have hholds := h.held t ht
  have hback : s.threads t ≠ .running := fun hrunning => by simp [hrunning] at hholds
  have hgo : s.go t = none := hrest (.go t) trivial hback
  cases hpoint : s.threads t with
  | notifying =>
    by_cases hasleep : ∃ i, s.threads (.worker i) = .blocked
    · obtain ⟨i, hi⟩ := hasleep
      have hnotify := hrest (.notifyOne t (some i)) trivial trivial
      rw [step, if_pos ⟨hpoint, hi⟩] at hnotify
      cases hnotify
    · have hnotify := hrest (.notifyOne t none) trivial trivial
      rw [step, if_pos ⟨hpoint, not_exists.mp hasleep⟩] at hnotify
      cases hnotify
  | popping =>
    obtain ⟨handle, queue, hqueue⟩ := List.exists_cons_of_ne_nil (h.sound.nonempty t hpoint)
    simp [go, hpoint, hqueue] at hgo
  | passed => by_cases hstop : s.stop <;> simp [go, hpoint, hstop] at hgo
  | pushing handle => simp [go, hpoint] at hgo
  | leaving => simp [go, hpoint] at hgo
  | testing => simp [go, hpoint] at hgo
  | blocking => simp [go, hpoint] at hgo
  | popped k handle => simp [go, hpoint] at hgo
  | _ => simp [hpoint] at hholds

/-- **Everybody is outside, asleep, in a coroutine, or has returned.** -/
theorem threads_of_rest (t : PoolThread n) : s.threads t = .idle ∨ s.threads t = .blocked ∨
    s.threads t = .running ∨ s.threads t = .returned := by
  have hfree := free_of_rest h hrest
  have hnot : (s.threads t).holds ≠ some () := h.sound.locked.holds_ne_of_free hfree t
  have hgo : s.threads t ≠ .running → s.go t = none := hrest (.go t) trivial
  cases hpoint : s.threads t with
  | idle => simp
  | blocked => simp
  | running => simp
  | returned => simp
  | looping => simp [go, hpoint] at hgo
  | locking => simp [go, hpoint, hfree] at hgo
  | waking => simp [go, hpoint, hfree] at hgo
  | resuming k handle => simp [go, hpoint] at hgo
  | _ => simp [hpoint] at hnot

/-- **What was taken has been resumed.** -/
theorem resumed_of_rest : (s.resumed.map Prod.fst).Perm (List.range s.taken.length) := by
  refine (List.perm_ext_iff_of_nodup h.sound.once List.nodup_range).mpr fun k => ?_
  rw [List.mem_range]
  constructor
  · intro hmem
    obtain ⟨r, hr, rfl⟩ := List.mem_map.mp hmem
    exact (List.getElem?_eq_some_iff.mp (h.sound.resumed r hr)).1
  · intro hlt
    refine (h.accounted k hlt).resolve_right fun ⟨t, handle, ht⟩ => ?_
    rcases threads_of_rest h hrest t with hpoint | hpoint | hpoint | hpoint <;> simp [hpoint] at ht

theorem worker_of_rest (hstop : ¬ s.stop) (i : Fin n) :
    s.threads (.worker i) = .blocked ∨ s.threads (.worker i) = .running := by
  rcases threads_of_rest h hrest (.worker i) with hidle | hblocked | hrunning | hreturned
  · exact absurd hidle (h.worker i)
  · exact Or.inl hblocked
  · exact Or.inr hrunning
  · exact absurd (h.returned _ hreturned) hstop

/-- Nobody is about. -/
theorem weigh_seeks_of_rest : s.weigh PoolPoint.seeks = 0 := by
  have hnone : ∀ t, (s.threads t).seeks = 0 := fun t => by
    rcases threads_of_rest h hrest t with hpoint | hpoint | hpoint | hpoint <;> rw [hpoint] <;> rfl
  simp only [weigh, callerWeight, free_of_rest h hrest, hnone, Finset.sum_const_zero]

/-- **Before the stop there is work only where all are in coroutines**, for no sleeper has any
behind it. -/
theorem settled_of_rest (ha : s.Attended) (hstop : ¬ s.stop) : s.Settled where
  workers := worker_of_rest h hrest hstop
  queue := by
    by_cases hasleep : ∃ i, s.threads (.worker i) = .blocked
    · left
      have hlength := ha hstop hasleep
      rw [weigh_seeks_of_rest h hrest] at hlength
      exact List.length_eq_zero_iff.mp (Nat.le_zero.mp hlength)
    · exact Or.inr fun i =>
        (worker_of_rest h hrest hstop i).resolve_left (not_exists.mp hasleep i)
  conserved := h.sound.conserved
  resumed := resumed_of_rest h hrest

end Rest

/-- A coroutine that can come back does. -/
theorem ne_running_of_rest (hrest : ∀ a : PoolAction n, a.Own → s.step a = none)
    (t : PoolThread n) : s.threads t ≠ .running := fun hrunning => by
  have hgo : s.go t = none := hrest (.go t) trivial
  simp [go, hrunning] at hgo

/-- **Where the coroutines come back the queue is empty**, and every worker sleeps. -/
theorem drained_of_rest {s : PoolState (n + 1)} (h : s.Orderly) (ha : s.Attended) (hstop : ¬ s.stop)
    (hrest : ∀ a : PoolAction (n + 1), a.Own → s.step a = none) : s.Drained := by
  have hback : ∀ i, s.threads (.worker i) ≠ .running := fun i => ne_running_of_rest hrest _
  have hsettled := settled_of_rest h (fun a hown _ => hrest a hown) ha hstop
  have hqueue : s.queue = [] := hsettled.queue.resolve_right fun hall => hback 0 (hall 0)
  refine ⟨hqueue, ?_, fun i => (hsettled.workers i).resolve_right (hback i)⟩
  rw [hsettled.conserved, hqueue, List.append_nil]
  exact hsettled.resumed

/-! ## Runs -/

/-- A thread's steps are not the destructor's. -/
theorem eq_of_own {a : PoolAction n} (ha : a.Own) (hstep : s.step a = some s') :
    s'.stop = s.stop ∧ s'.notifiedAll = s.notifiedAll ∧ s.NobodyAbout a := by
  cases a with
  | go t =>
    obtain ⟨point, hgone⟩ := gone_of_go hstep
    exact ⟨hgone.stop, hgone.notifiedAll, trivial⟩
  | notifyOne t woken =>
    cases woken <;> obtain ⟨-, heq⟩ := Option.ite_none_right_eq_some.mp hstep <;>
      exact Option.some.inj heq ▸ ⟨rfl, rfl, trivial⟩
  | enqueue t handle => exact ha.elim
  | wake i => exact ha.elim
  | requestStop => exact ha.elim
  | notifyAll => exact ha.elim

instance (a : PoolAction n) : Decidable (s.NobodyAbout a) :=
  match a with
  | .notifyAll => inferInstanceAs (Decidable (∀ i, s.threads (.worker i) ≠ .blocking))
  | .go _ => inferInstanceAs (Decidable True)
  | .notifyOne _ _ => inferInstanceAs (Decidable True)
  | .enqueue _ _ => inferInstanceAs (Decidable True)
  | .wake _ => inferInstanceAs (Decidable True)
  | .requestStop => inferInstanceAs (Decidable True)

/-- Only the destructor asks who is about. -/
theorem watched_or_stop_of_step {s s' : PoolState (n + 1)} {a : PoolAction (n + 1)}
    (h : s.stop ∨ s.Watched) (hstep : s.step a = some s') : s'.stop ∨ s'.Watched := by
  have hstop : s.stop → s'.stop := fun hs => by
    rcases gone_or_stirs hstep with ⟨t, point, -, hgone⟩ | hstirs
    · exact hgone.stop ▸ hs
    · exact hstirs.stop hs
  rcases h with hs | hw
  · exact Or.inl (hstop hs)
  cases a with
  | notifyAll => exact Or.inl (hstop (Option.ite_none_right_eq_some.mp hstep).1.1)
  | _ => exact Or.inr (watched_of_step hw hstep trivial)

/-- Nobody has asked for a stop. -/
structure Working (s : PoolState n) : Prop where
  orderly : s.Orderly
  watched : s.Watched
  attended : s.Attended
  running : ¬ s.stop

/-- **A thread's step keeps the pool at work, and uses something up.** -/
theorem working_of_own {s s' : PoolState (n + 1)} {a : PoolAction (n + 1)} (h : s.Working)
    (ha : a.Own) (hstep : s.step a = some s') : s'.Working ∧ s'.cost < s.cost := by
  obtain ⟨hstop, -, hnobody⟩ := eq_of_own ha hstep
  refine ⟨⟨orderly_of_step h.orderly hstep, watched_of_step h.watched hstep hnobody, ?_, ?_⟩,
    cost_lt_of_own h.orderly ha hstep⟩
  · exact attended_of_step h.orderly (Or.inr h.watched) h.attended hstep
  · exact hstop ▸ h.running

end PoolState

section Runs

variable (n : ℕ) {actions : List (PoolAction (n + 1))} {s : PoolState (n + 1)}

/-- **No work is left behind a sleeper**: from every state before a stop, whatever order the threads
run in, they come to where every worker sleeps or is in a coroutine that keeps its thread, with the
queue empty unless all are in coroutines — and where the coroutines come back, to where the queue is
empty, each handle has been resumed once, and every worker sleeps. -/
theorem drains_of_run (hrun : (poolSystem (n + 1)).run actions = some s) (hstop : ¬ s.stop) :
    ((poolSystem (n + 1)).guard PoolState.NobodyBack).Inevitably PoolAction.Own
        PoolState.Settled s ∧
      (poolSystem (n + 1)).Inevitably PoolAction.Own PoolState.Drained s := by
  obtain ⟨horderly, hwatched, hattended⟩ := System.forall_visited
    (fun s : PoolState (n + 1) => s.Orderly ∧ (s.stop ∨ s.Watched) ∧ s.Attended)
    ⟨PoolState.orderly_init _, Or.inr (PoolState.watched_init _), PoolState.attended_init _⟩
    (fun s a t h hstep => ⟨PoolState.orderly_of_step h.1 hstep,
      PoolState.watched_or_stop_of_step h.2.1 hstep,
      PoolState.attended_of_step h.1 h.2.1 h.2.2 hstep⟩) actions s
    (System.mem_visited_of_run _ hrun)
  have hworking : s.Working := ⟨horderly, hwatched.resolve_left hstop, hattended, hstop⟩
  constructor
  · refine System.inevitably_of_cost PoolState.Working PoolState.cost (fun s a t h ha hstep => ?_)
      (fun s h hrest => ?_) hworking
    · exact PoolState.working_of_own h ha (System.step_guard_eq_some _ |>.mp hstep).2
    · exact PoolState.settled_of_rest h.orderly
        (fun a ha hback => (if_pos hback).symm.trans (hrest a ha)) h.attended h.running
  · exact System.inevitably_of_cost PoolState.Working PoolState.cost
      (fun s a t => PoolState.working_of_own)
      (fun s h => PoolState.drained_of_rest h.orderly h.attended h.running) hworking

end Runs

/-- The coroutine that puts itself into the queue again is resumed again where it comes back, and so
is the other. -/
theorem drains_reschedules : ∃ s, (poolSystem 1).run reschedules = some s ∧ ¬ s.stop ∧
    ((poolSystem 1).guard PoolState.NobodyBack).Inevitably PoolAction.Own PoolState.Settled s ∧
    (poolSystem 1).Inevitably PoolAction.Own PoolState.Drained s := by
  obtain ⟨s, hs⟩ : ∃ s, (poolSystem 1).run reschedules = some s := ⟨_, rfl⟩
  have hstop : ¬ s.stop := by
    rw [← Option.some.inj hs]
    exact Bool.false_ne_true
  exact ⟨s, hs, hstop, drains_of_run 0 hs hstop⟩

end YServer
