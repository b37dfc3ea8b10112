import YServer.BaseNet.PoolRest

/-!
# BaseNet/Teardown — the pool's destructor, to its end

The destructor's body asks for the stop and notifies all.  The members go after it, from the last
declared to the first, so the threads are joined when what they use is gone:

    request_stop ─▸ notify_all ─▸ ~queue ─▸ ~condition_variable ─▸ ~mutex ─▸ ~jthread: join

After the stop a thread that is outside `enqueue` and past its unlock only looks at the stop; the
others are on the way to a member, or to several (`PoolPoint.needs`).  No member is used after it
has gone exactly as long as each goes when nobody is on the way to it, and nothing is put in after
the first; and then, where the coroutines come back, the destructor ends (`destroyed_of_run`).
-/

namespace YServer

open Machinery

/-! ## The members -/

/-- What the threads of a pool use of it. -/
inductive PoolMember
  | queue
  | conditionVariable
  | mutex
  deriving DecidableEq, Repr

/-- In the order they are destroyed in. -/
def PoolMember.all : List PoolMember := [.queue, .conditionVariable, .mutex]

theorem PoolMember.mem_all (m : PoolMember) : m ∈ PoolMember.all := by cases m <;> decide

/-- What is left while they go. -/
theorem PoolMember.eq_of_suffix {members : List PoolMember} (h : members <:+ PoolMember.all) :
    members = PoolMember.all ∨ members = [.conditionVariable, .mutex] ∨ members = [.mutex] ∨
      members = [] := by
  simpa [PoolMember.all, List.suffix_cons_iff] using h

/-- The next step of a thread there uses the member. -/
@[simp] def PoolPoint.uses (point : PoolPoint) : PoolMember → Bool
  | .queue =>
    match point with
    | .pushing _ | .testing | .popping => true
    | _ => false
  | .conditionVariable =>
    match point with
    | .notifying | .blocking | .blocked => true
    | _ => false
  | .mutex =>
    match point with
    | .leaving | .locking | .blocking | .waking | .passed | .popped _ _ => true
    | _ => false

/-- That step, or one it leads to after a stop has been requested, uses it. -/
@[simp] def PoolPoint.needs (point : PoolPoint) : PoolMember → Bool
  | .queue =>
    match point with
    | .pushing _ | .locking | .testing | .blocking | .blocked | .waking | .popping => true
    | _ => false
  | .conditionVariable =>
    match point with
    | .pushing _ | .notifying | .blocking | .blocked => true
    | _ => false
  | .mutex =>
    match point with
    | .idle | .looping | .resuming _ _ | .running | .returned => false
    | _ => true

theorem PoolPoint.needs_of_uses {point : PoolPoint} {m : PoolMember} (h : point.uses m = true) :
    point.needs m = true := by
  cases m <;> cases point <;> simp at h ⊢

/-- Who is under the lock unlocks it. -/
theorem PoolPoint.needs_mutex_of_holds {point : PoolPoint} (h : point.holds = some ()) :
    point.needs .mutex = true := by
  cases point <;> simp at h ⊢

namespace PoolState

variable {n : ℕ} (s : PoolState n)

/-- The step uses the member. -/
def uses (m : PoolMember) : PoolAction n → Bool
  | .go t => (s.threads t).uses m
  | .enqueue _ _ => decide (m = .mutex)
  | .notifyOne _ _ | .wake _ | .notifyAll => decide (m = .conditionVariable)
  | .requestStop => false

/-- The mutex is locked, or somebody sleeps in the condition variable. -/
def InUse : PoolMember → Prop
  | .queue => False
  | .conditionVariable => ∃ i, s.threads (.worker i) = .blocked
  | .mutex => s.mutex ≠ none

instance (m : PoolMember) : Decidable (s.InUse m) :=
  match m with
  | .queue => inferInstanceAs (Decidable False)
  | .conditionVariable => inferInstanceAs (Decidable (∃ i, s.threads (.worker i) = .blocked))
  | .mutex => inferInstanceAs (Decidable (s.mutex ≠ none))

/-- **Nobody is on the way to the member**: no worker, nor who has the lock. -/
def Unneeded (m : PoolMember) : Prop :=
  (∀ i, (s.threads (.worker i)).needs m = false) ∧
    ∀ t ∈ s.mutex, (s.threads t).needs m = false

instance (m : PoolMember) : Decidable (s.Unneeded m) := inferInstanceAs (Decidable (_ ∧ _))

/-- …after the destructor's body. -/
structure Vacated (m : PoolMember) : Prop where
  stop : s.stop
  notifiedAll : s.notifiedAll
  unneeded : ∀ t, (s.threads t).needs m = false

/-- **Every worker has returned**, so the `join`s do, and what was taken has been resumed. -/
structure Joined : Prop where
  returned : ∀ i, s.threads (.worker i) = .returned
  resumed : (s.resumed.map Prod.fst).Perm (List.range s.taken.length)

end PoolState

/-- A pool and its destructor. -/
structure TeardownState (n : ℕ) where
  pool : PoolState n
  /-- Those that are still there. -/
  members : List PoolMember
  /-- A member was used after it had gone, or went while it was in use. -/
  fault : Bool

inductive TeardownAction (n : ℕ)
  | pool (a : PoolAction n)
  /-- The next member goes, after the body of the destructor. -/
  | destroyMember
  deriving DecidableEq, Repr

namespace TeardownState

variable {n : ℕ} (s : TeardownState n)

/-- The step uses a member that has gone. -/
def misuses (a : PoolAction n) : Bool :=
  PoolMember.all.any fun m => decide (m ∉ s.members) && s.pool.uses m a

def step : TeardownAction n → Option (TeardownState n)
  | .pool a => (s.pool.step a).map fun pool =>
    { s with pool, fault := s.fault || s.misuses a }
  | .destroyMember =>
    match s.members with
    | [] => none
    | m :: members =>
      if s.pool.notifiedAll then
        some { s with members, fault := s.fault || decide (s.pool.InUse m) }
      else none

/-- **A member goes when nobody is on the way to it**, and nothing is put in after the first. -/
def Allowed : TeardownAction n → Prop
  | .pool (.enqueue _ _) => s.members = PoolMember.all
  | .destroyMember => ∀ m ∈ s.members.head?, s.pool.Unneeded m
  | _ => True

instance (a : TeardownAction n) : Decidable (s.Allowed a) :=
  match a with
  | .pool (.enqueue _ _) => inferInstanceAs (Decidable (s.members = PoolMember.all))
  | .pool (.go _) => inferInstanceAs (Decidable True)
  | .pool (.notifyOne _ _) => inferInstanceAs (Decidable True)
  | .pool (.wake _) => inferInstanceAs (Decidable True)
  | .pool .requestStop => inferInstanceAs (Decidable True)
  | .pool .notifyAll => inferInstanceAs (Decidable True)
  | .destroyMember => inferInstanceAs (Decidable (∀ m ∈ s.members.head?, s.pool.Unneeded m))

/-- `notify_all` finds no worker between the predicate and the sleep. -/
def NobodyAbout : TeardownAction n → Prop
  | .pool a => s.pool.NobodyAbout a
  | .destroyMember => True

instance (a : TeardownAction n) : Decidable (s.NobodyAbout a) :=
  match a with
  | .pool a => inferInstanceAs (Decidable (s.pool.NobodyAbout a))
  | .destroyMember => inferInstanceAs (Decidable True)

/-- **The destructor has ended**, and no member was used after it had gone. -/
structure Destroyed : Prop where
  gone : s.members = []
  joined : s.pool.Joined
  noFault : s.pool.fault = false ∧ s.fault = false

end TeardownState

/-- The steps of the threads, and the destructor's own. -/
@[simp] def TeardownAction.Own {n : ℕ} : TeardownAction n → Prop
  | .pool a => a.Own
  | .destroyMember => True

/-- A pool of `n` threads, from its construction to the end of its destruction. -/
def teardownSystem (n : ℕ) : System (TeardownState n) (TeardownAction n) where
  init := { pool := (poolSystem n).init, members := PoolMember.all, fault := false }
  step := TeardownState.step

/-! ## Who is on the way to a member -/

namespace PoolState

variable {n : ℕ} {s s' : PoolState n} {t : PoolThread n} {m : PoolMember}

/-- A caller is outside, or has the lock. -/
theorem Unneeded.needs_eq_false (hm : s.Unneeded m) (h : s.Orderly) (t : PoolThread n) :
    (s.threads t).needs m = false := by
  cases t with
  | worker i => exact hm.1 i
  | caller j =>
    rcases h.caller j with hidle | hin
    · rw [hidle]
      cases m <;> rfl
    · exact hm.2 _ (h.sound.locked _ () hin.holds)

/-- A member that nobody is on the way to is not in use. -/
theorem Unneeded.not_inUse (hm : s.Unneeded m) (h : s.Orderly) : ¬ s.InUse m := by
  cases m with
  | queue => exact id
  | conditionVariable =>
    rintro ⟨i, hi⟩
    have hneeds := hm.1 i
    simp [hi] at hneeds
  | mutex =>
    intro hmutex
    obtain ⟨t, ht⟩ := Option.ne_none_iff_exists'.mp hmutex
    cases (hm.2 t ht).symm.trans (PoolPoint.needs_mutex_of_holds (h.held t ht))

theorem needs_of_update {threads : PoolThread n → PoolPoint} {point : PoolPoint}
    (hpoint : point.needs m = true → (threads t).needs m = true) (u : PoolThread n)
    (hu : (Function.update threads t point u).needs m = true) : (threads u).needs m = true := by
  rcases eq_or_ne u t with rfl | hne
  · rw [Function.update_self] at hu
    exact hpoint hu
  · rwa [Function.update_of_ne hne] at hu

/-- **Nobody sets out for a member after the stop.** -/
theorem needs_of_go (hstop : s.stop) (hgo : s.go t = some s') (u : PoolThread n)
    (hu : (s'.threads u).needs m = true) : (s.threads u).needs m = true := by
  cases hpoint : s.threads t with
  | idle => simp only [go, hpoint, reduceCtorEq] at hgo
  | notifying => simp only [go, hpoint, reduceCtorEq] at hgo
  | blocked => simp only [go, hpoint, reduceCtorEq] at hgo
  | returned => simp only [go, hpoint, reduceCtorEq] at hgo
  | popping =>
    simp only [go, hpoint] at hgo
    split at hgo
    · obtain rfl := Option.some.inj hgo
      exact hu
    · obtain rfl := Option.some.inj hgo
      exact needs_of_update (by cases m <;> simp [hpoint]) u hu
  | locking | waking =>
    simp only [go, hpoint, Option.ite_none_right_eq_some, Option.some.injEq] at hgo
    obtain ⟨-, rfl⟩ := hgo
    exact needs_of_update (by cases m <;> simp [hpoint]) u hu
  | leaving =>
    simp only [go, hpoint, Option.some.injEq] at hgo
    subst hgo
    exact needs_of_update (by cases m <;> cases t <;> simp [PoolThread.outside]) u hu
  | _ =>
    simp only [go, hpoint, hstop, or_true, if_true, Option.some.injEq] at hgo
    subst hgo
    exact needs_of_update (by cases m <;> simp [hpoint]) u hu

/-- …and only a call of `enqueue` could take somebody there. -/
theorem needs_of_step {a : PoolAction n} (hstop : s.stop) (ha : ∀ t handle, a ≠ .enqueue t handle)
    (hstep : s.step a = some s') (u : PoolThread n) (hu : (s'.threads u).needs m = true) :
    (s.threads u).needs m = true := by
  have hwaking : PoolPoint.needs .waking m = true → PoolPoint.needs .blocked m = true := by
    cases m <;> simp
  have hleaving : PoolPoint.needs .leaving m = true → PoolPoint.needs .notifying m = true := by
    cases m <;> simp
  cases a with
  | go t => exact needs_of_go hstop hstep u hu
  | enqueue t handle => exact absurd rfl (ha t handle)
  | notifyOne t woken =>
    cases woken with
    | none =>
      obtain ⟨⟨ht, -⟩, heq⟩ := Option.ite_none_right_eq_some.mp hstep
      obtain rfl := Option.some.inj heq
      exact needs_of_update (fun h => ht ▸ hleaving h) u hu
    | some i =>
      obtain ⟨⟨ht, hi⟩, heq⟩ := Option.ite_none_right_eq_some.mp hstep
      obtain rfl := Option.some.inj heq
      have hblocked := blocked_of_notified ht hi
      have hnotified : (s.moved t .leaving u).needs m = true :=
        needs_of_update (fun h => hblocked ▸ hwaking h) u hu
      exact needs_of_update (fun h => ht ▸ hleaving h) u hnotified
  | wake i =>
    obtain ⟨hi, heq⟩ := Option.ite_none_right_eq_some.mp hstep
    obtain rfl := Option.some.inj heq
    exact needs_of_update (fun h => hi ▸ hwaking h) u hu
  | requestStop => exact absurd hstop (Option.ite_none_left_eq_some.mp hstep).1
  | notifyAll =>
    obtain ⟨-, heq⟩ := Option.ite_none_right_eq_some.mp hstep
    obtain rfl := Option.some.inj heq
    change (s.wokenAll u).needs m = true at hu
    rw [wokenAll] at hu
    split_ifs at hu with hblocked
    · exact hblocked ▸ hwaking hu
    · exact hu

/-- **Who uses a member was on the way to it.** -/
theorem needs_of_uses {a : PoolAction n} (hall : s.notifiedAll)
    (ha : ∀ t handle, a ≠ .enqueue t handle) (hstep : s.step a = some s')
    (huses : s.uses m a = true) : ∃ t, (s.threads t).needs m = true := by
  cases a with
  | go t => exact ⟨t, PoolPoint.needs_of_uses huses⟩
  | enqueue t handle => exact absurd rfl (ha t handle)
  | notifyOne t woken =>
    obtain rfl := of_decide_eq_true huses
    refine ⟨t, ?_⟩
    have ht : s.threads t = .notifying := by
      cases woken <;> exact (Option.ite_none_right_eq_some.mp hstep).1.1
    simp [ht]
  | wake i =>
    obtain rfl := of_decide_eq_true huses
    exact ⟨.worker i, by simp [(Option.ite_none_right_eq_some.mp hstep).1]⟩
  | requestStop => cases huses
  | notifyAll => exact absurd hall (Option.ite_none_right_eq_some.mp hstep).1.2

/-- What has been asked for stays so, and who is notified can see the stop. -/
theorem flags_of_step {a : PoolAction n} (hstep : s.step a = some s') :
    (s.stop → s'.stop) ∧ (s.notifiedAll → s'.notifiedAll) ∧
      (s'.notifiedAll → s.notifiedAll ∨ s'.stop) := by
  cases a with
  | go t =>
    obtain ⟨point, hgone⟩ := gone_of_go hstep
    rw [hgone.stop, hgone.notifiedAll]
    exact ⟨id, id, Or.inl⟩
  | enqueue t handle =>
    exact Option.some.inj (Option.ite_none_right_eq_some.mp hstep).2 ▸ ⟨id, id, Or.inl⟩
  | notifyOne t woken =>
    cases woken <;>
      exact Option.some.inj (Option.ite_none_right_eq_some.mp hstep).2 ▸ ⟨id, id, Or.inl⟩
  | wake i => exact Option.some.inj (Option.ite_none_right_eq_some.mp hstep).2 ▸ ⟨id, id, Or.inl⟩
  | requestStop =>
    exact Option.some.inj (Option.ite_none_left_eq_some.mp hstep).2 ▸ ⟨fun _ => rfl, id, Or.inl⟩
  | notifyAll =>
    obtain ⟨⟨hstop, -⟩, heq⟩ := Option.ite_none_right_eq_some.mp hstep
    exact Option.some.inj heq ▸ ⟨id, fun _ => rfl, fun _ => Or.inr hstop⟩

/-- **A member that nobody is on the way to is not used any more**, except in `enqueue`. -/
theorem Vacated.step {a : PoolAction n} (hm : s.Vacated m)
    (ha : ∀ t handle, a ≠ .enqueue t handle) (hstep : s.step a = some s') :
    s'.Vacated m ∧ s.uses m a = false := by
  have hnobody : ∀ t, ¬ (s.threads t).needs m = true := fun t =>
    Bool.eq_false_iff.mp (hm.unneeded t)
  obtain ⟨hstop, hall, -⟩ := flags_of_step hstep
  constructor
  · refine ⟨hstop hm.stop, hall hm.notifiedAll, fun t => Bool.eq_false_iff.mpr fun ht => ?_⟩
    exact hnobody t (needs_of_step hm.stop ha hstep t ht)
  · refine Bool.eq_false_iff.mpr fun huses => ?_
    obtain ⟨t, ht⟩ := needs_of_uses hm.notifiedAll ha hstep huses
    exact hnobody t ht

end PoolState

/-! ## Every step -/

namespace TeardownState

variable {n : ℕ} {s s' : TeardownState n} {a : TeardownAction n} {t : PoolThread n} {m : PoolMember}

/-- **No member has been used after it had gone**, and nobody is on the way to one. -/
structure Kept (s : TeardownState n) : Prop where
  orderly : s.pool.Orderly
  stop : s.pool.notifiedAll → s.pool.stop
  noFault : s.fault = false
  inOrder : s.members <:+ PoolMember.all
  vacated : ∀ m, m ∉ s.members → s.pool.Vacated m

theorem kept_init (n : ℕ) : (teardownSystem n).init.Kept where
  orderly := PoolState.orderly_init n
  stop h := by cases h
  noFault := rfl
  inOrder := List.suffix_refl _
  vacated m h := absurd m.mem_all h

theorem misuses_eq_true {b : PoolAction n} :
    s.misuses b = true ↔ ∃ m, m ∉ s.members ∧ s.pool.uses m b = true := by
  simp [misuses, PoolMember.mem_all]

theorem step_pool_eq_some {b : PoolAction n} : s.step (.pool b) = some s' ↔
    ∃ pool, s.pool.step b = some pool ∧
      { s with pool, fault := s.fault || s.misuses b } = s' :=
  Option.map_eq_some_iff

theorem step_destroyMember_eq_some : s.step .destroyMember = some s' ↔
    ∃ m members, s.members = m :: members ∧ s.pool.notifiedAll ∧
      { s with members, fault := s.fault || decide (s.pool.InUse m) } = s' := by
  rw [step]
  cases s.members <;> simp

/-- A condition on a step of the pool. -/
theorem allowed_pool_iff {b : PoolAction n} : s.Allowed (.pool b) ↔
    (s.members ≠ PoolMember.all → ∀ t handle, b ≠ .enqueue t handle) := by
  cases b <;> simp [Allowed]

/-- **A step that is allowed leaves it so.** -/
theorem kept_of_step (h : s.Kept) (hstep : s.step a = some s') (ha : s.Allowed a) : s'.Kept := by
  cases a with
  | pool b =>
    obtain ⟨pool, hpool, rfl⟩ := step_pool_eq_some.mp hstep
    have hvacated : ∀ m, m ∉ s.members → pool.Vacated m ∧ s.pool.uses m b = false := fun m hm => by
      have hgone : s.members ≠ PoolMember.all := fun heq => hm (heq ▸ m.mem_all)
      exact (h.vacated m hm).step (allowed_pool_iff.mp ha hgone) hpool
    refine ⟨PoolState.orderly_of_step h.orderly hpool, fun hall => ?_, ?_, h.inOrder,
      fun m hm => (hvacated m hm).1⟩
    · obtain ⟨hstop, -, hseen⟩ := PoolState.flags_of_step hpool
      exact (hseen hall).elim (hstop ∘ h.stop) id
    · rw [h.noFault, Bool.false_or, Bool.eq_false_iff, ne_eq, misuses_eq_true]
      rintro ⟨m, hm, huses⟩
      cases (hvacated m hm).2.symm.trans huses
  | destroyMember =>
    obtain ⟨m, members, hmembers, hall, rfl⟩ := step_destroyMember_eq_some.mp hstep
    have hm : s.pool.Unneeded m := ha m (by rw [hmembers]; rfl)
    refine ⟨h.orderly, h.stop, ?_, (hmembers ▸ List.suffix_cons m members).trans h.inOrder,
      fun k hk => ?_⟩
    · rw [h.noFault, Bool.false_or, decide_eq_false_iff_not]
      exact hm.not_inUse h.orderly
    · rcases eq_or_ne k m with rfl | hkm
      · exact ⟨h.stop hall, hall, hm.needs_eq_false h.orderly⟩
      · exact h.vacated k (by rw [hmembers]; exact List.not_mem_cons_of_ne_of_not_mem hkm hk)

/-! ## Who gets to a member that has gone -/

/-- The run can go on to a fault. -/
def Fails (s : TeardownState n) : Prop :=
  ∃ bs u, (teardownSystem n).runFrom s bs = some u ∧ u.fault ≠ false

theorem Fails.of_step (hstep : s.step a = some s') (h : s'.Fails) : s.Fails := by
  obtain ⟨bs, u, hrun, hu⟩ := h
  refine ⟨a :: bs, u, ?_, hu⟩
  rw [System.runFrom_cons, show (teardownSystem n).step s a = some s' from hstep]
  exact hrun

theorem fails_of_fault (h : s.fault = true) : s.Fails := ⟨[], s, rfl, by simp [h]⟩

/-- A step of the pool that uses what has gone. -/
theorem fails_of_uses {b : PoolAction n} (hm : m ∉ s.members) (hstep : (s.pool.step b).isSome)
    (huses : s.pool.uses m b = true) : s.Fails := by
  obtain ⟨pool, hpool⟩ := Option.isSome_iff_exists.mp hstep
  refine .of_step (step_pool_eq_some.mpr ⟨pool, hpool, rfl⟩) (fails_of_fault ?_)
  simp [misuses_eq_true.mpr ⟨m, hm, huses⟩]

/-- …after other steps of the pool. -/
theorem Fails.of_pool {b : PoolAction n} {pool : PoolState n} (hpool : s.pool.step b = some pool)
    (h : ∀ fault, Fails { s with pool, fault }) : s.Fails :=
  .of_step (step_pool_eq_some.mpr ⟨pool, hpool, rfl⟩) (h _)

section Queue

variable (hgone : .queue ∉ s.members)

include hgone

/-- Who is about to lock tests the predicate. -/
theorem fails_of_locks (hfree : s.pool.mutex = none)
    (ht : s.pool.threads t = .locking ∨ s.pool.threads t = .waking) : s.Fails := by
  have hgo : s.pool.step (.go t) = some { s.pool with
      mutex := some t, threads := s.pool.moved t .testing } := by
    rcases ht with ht | ht <;> simp [PoolState.step, PoolState.go, ht, hfree]
  refine .of_pool hgo fun _ => fails_of_uses (b := .go t) hgone ?_ ?_
  · simp [PoolState.step, PoolState.go, PoolState.moved]
  · simp [PoolState.uses, PoolState.moved]

/-- **Who needs the queue gets to it** where the lock is free… -/
theorem fails_of_free (h : s.pool.Orderly) (hfree : s.pool.mutex = none)
    (ht : (s.pool.threads t).needs .queue = true) : s.Fails := by
  have hnot : (s.pool.threads t).holds ≠ some () := h.sound.locked.holds_ne_of_free hfree t
  cases hpoint : s.pool.threads t with
  | locking => exact fails_of_locks hgone hfree (Or.inl hpoint)
  | waking => exact fails_of_locks hgone hfree (Or.inr hpoint)
  | blocked =>
    cases t with
    | caller j =>
      rcases h.caller j with hidle | hin
      · cases hidle.symm.trans hpoint
      · exact (hpoint ▸ hin).elim
    | worker i =>
      have hwake : s.pool.step (.wake i) =
          some { s.pool with threads := s.pool.moved (.worker i) .waking } := if_pos hpoint
      exact .of_pool hwake fun _ => fails_of_locks (t := .worker i) hgone hfree
        (Or.inr (Function.update_self ..))
  | _ => simp [hpoint] at hnot ht

/-- …and so once it is… -/
theorem fails_of_unlock (u : PoolThread n) (point : PoolPoint) (h : s.pool.Orderly)
    (hgo : s.pool.step (.go u) = some { s.pool with
      mutex := none, threads := s.pool.moved u point })
    (ht : (s.pool.moved u point t).needs .queue = true) : s.Fails :=
  .of_pool hgo fun _ => fails_of_free (t := t) hgone (PoolState.orderly_of_step h hgo) rfl ht

/-- …by a thread that has no need of it. -/
theorem fails_of_unlock_of_ne (u : PoolThread n) (point : PoolPoint) (h : s.pool.Orderly)
    (hgo : s.pool.step (.go u) = some { s.pool with
      mutex := none, threads := s.pool.moved u point })
    (hne : t ≠ u) (ht : (s.pool.threads t).needs .queue = true) : s.Fails :=
  fails_of_unlock hgone u point h hgo (by rwa [PoolState.moved, Function.update_of_ne hne])

theorem fails_of_leaving {u : PoolThread n} (h : s.pool.Orderly)
    (hu : s.pool.threads u = .leaving) (hne : t ≠ u)
    (ht : (s.pool.threads t).needs .queue = true) : s.Fails :=
  fails_of_unlock_of_ne hgone u u.outside h
    (by simp [PoolState.step, PoolState.go, hu]) hne ht

/-- Who notifies leaves next, and whoever it wakes is on the way. -/
theorem fails_of_notifying {u : PoolThread n} (h : s.pool.Orderly)
    (hu : s.pool.threads u = .notifying) (hne : t ≠ u)
    (ht : (s.pool.threads t).needs .queue = true) : s.Fails := by
  by_cases hasleep : ∃ i, s.pool.threads (.worker i) = .blocked
  · obtain ⟨i, hi⟩ := hasleep
    have hiu : u ≠ .worker i := by
      rintro rfl
      cases hu.symm.trans hi
    have hnotify : s.pool.step (.notifyOne u (some i)) = some { s.pool with
        threads := Function.update (s.pool.moved u .leaving) (.worker i) .waking } :=
      if_pos ⟨hu, hi⟩
    refine .of_pool hnotify fun _ => fails_of_leaving (u := u) hgone
      (PoolState.orderly_of_step h hnotify) ?_ hne ?_
    · exact (Function.update_of_ne hiu _ _).trans (Function.update_self ..)
    · change (Function.update (s.pool.moved u .leaving) (.worker i) .waking t).needs .queue = true
      rcases eq_or_ne t (.worker i) with rfl | hti
      · rw [Function.update_self]
        rfl
      · rwa [Function.update_of_ne hti, PoolState.moved, Function.update_of_ne hne]
  · have hnotify : s.pool.step (.notifyOne u none) =
        some { s.pool with threads := s.pool.moved u .leaving } :=
      if_pos ⟨hu, not_exists.mp hasleep⟩
    refine .of_pool hnotify fun _ => fails_of_leaving (u := u) hgone
      (PoolState.orderly_of_step h hnotify) (Function.update_self ..) hne ?_
    exact (congrArg (PoolPoint.needs · .queue) (Function.update_of_ne hne _ _)).trans ht

/-- **Who needs the queue gets to it, or who has the lock before.** -/
theorem fails_of_needs (h : s.pool.Orderly) (hstop : s.pool.stop)
    (ht : (s.pool.threads t).needs .queue = true) : s.Fails := by
  cases hmutex : s.pool.mutex with
  | none => exact fails_of_free hgone h hmutex ht
  | some u =>
    have hholds := h.held u hmutex
    have hne : (s.pool.threads u).needs .queue = false → t ≠ u := by
      rintro hu rfl
      cases hu.symm.trans ht
    cases hpoint : s.pool.threads u with
    | pushing handle =>
      exact fails_of_uses (b := .go u) hgone (by simp [PoolState.step, PoolState.go, hpoint])
        (by simp [PoolState.uses, hpoint])
    | testing =>
      exact fails_of_uses (b := .go u) hgone (by simp [PoolState.step, PoolState.go, hpoint])
        (by simp [PoolState.uses, hpoint])
    | popping =>
      obtain ⟨handle, queue, hqueue⟩ := List.exists_cons_of_ne_nil (h.sound.nonempty u hpoint)
      exact fails_of_uses (b := .go u) hgone
        (by simp [PoolState.step, PoolState.go, hpoint, hqueue]) (by simp [PoolState.uses, hpoint])
    | blocking =>
      -- asleep, and woken for no reason
      refine fails_of_unlock (t := u) hgone u .blocked h (PoolState.go_blocking hpoint) ?_
      simp [PoolState.moved]
    | leaving => exact fails_of_leaving hgone h hpoint (hne (by simp [hpoint])) ht
    | notifying => exact fails_of_notifying hgone h hpoint (hne (by simp [hpoint])) ht
    | passed =>
      exact fails_of_unlock_of_ne hgone u .returned h
        (by simp [PoolState.step, PoolState.go, hpoint, hstop]) (hne (by simp [hpoint])) ht
    | popped k handle =>
      exact fails_of_unlock_of_ne hgone u (.resuming k handle) h
        (by simp [PoolState.step, PoolState.go, hpoint]) (hne (by simp [hpoint])) ht
    | _ => simp [hpoint] at hholds

end Queue

/-- **After a step that is not allowed the run can go on to a fault.** -/
theorem fails_of_not_allowed (h : s.Kept) (hstep : s.step a = some s') (ha : ¬ s.Allowed a) :
    s'.Fails := by
  cases a with
  | pool b =>
    obtain ⟨hgone, hcalls⟩ := Classical.not_imp.mp (mt allowed_pool_iff.mpr ha)
    obtain ⟨t, handle, rfl⟩ : ∃ t handle, b = .enqueue t handle := by
      by_contra hnone
      exact hcalls fun t handle heq => hnone ⟨t, handle, heq⟩
    obtain ⟨pool, hpool, rfl⟩ := step_pool_eq_some.mp hstep
    obtain ⟨-, heq⟩ := Option.ite_none_right_eq_some.mp hpool
    obtain rfl := Option.some.inj heq
    have hqueue : .queue ∉ s.members := by
      rcases PoolMember.eq_of_suffix h.inOrder with heq | heq | heq | heq
      · exact absurd heq hgone
      all_goals simp [heq]
    -- it pushes next
    refine fails_of_uses (m := .queue) (b := .go t) hqueue ?_ ?_
    · simp [PoolState.step, PoolState.go, PoolState.moved]
    · simp [PoolState.uses, PoolState.moved]
  | destroyMember =>
    obtain ⟨m, members, hmembers, hall, rfl⟩ := step_destroyMember_eq_some.mp hstep
    obtain ⟨t, ht⟩ : ∃ t, (s.pool.threads t).needs m = true := by
      by_contra hnone
      have hnobody := fun t => Bool.eq_false_iff.mpr (not_exists.mp hnone t)
      refine ha fun k hk => ?_
      rw [hmembers] at hk
      exact Option.some.inj hk ▸ ⟨fun i => hnobody _, fun t _ => hnobody t⟩
    have hvacated : ∀ k, k ∉ s.members → (s.pool.threads t).needs k = false := fun k hk =>
      (h.vacated k hk).unneeded t
    rcases PoolMember.eq_of_suffix h.inOrder with heq | heq | heq | heq
    · -- the queue
      obtain ⟨rfl, rfl⟩ := List.cons.inj (hmembers.symm.trans heq)
      exact fails_of_needs (by simp) h.orderly (h.stop hall) ht
    · -- the condition variable: who needs it, and no queue, notifies
      obtain ⟨rfl, rfl⟩ := List.cons.inj (hmembers.symm.trans heq)
      have hqueue := hvacated .queue (by simp [heq])
      have ht : s.pool.threads t = .notifying := by
        cases hpoint : s.pool.threads t <;> simp [hpoint] at ht hqueue ⊢
      have hasleep : ∀ i, s.pool.threads (.worker i) ≠ .blocked := fun i hi => by
        have hneeds := (h.vacated .queue (by simp [heq])).unneeded (.worker i)
        simp [hi] at hneeds
      refine fails_of_uses (m := .conditionVariable) (b := .notifyOne t none) (by simp) ?_ rfl
      rw [PoolState.step, if_pos ⟨ht, hasleep⟩]
      rfl
    · -- the mutex: who needs nothing else has it
      obtain ⟨rfl, rfl⟩ := List.cons.inj (hmembers.symm.trans heq)
      have hqueue := hvacated .queue (by simp [heq])
      have hcv := hvacated .conditionVariable (by simp [heq])
      have hholds : (s.pool.threads t).holds = some () := by
        cases hpoint : s.pool.threads t <;> simp [hpoint] at ht hqueue hcv ⊢
      have hinUse : s.pool.InUse .mutex := fun hfree => by
        cases hfree.symm.trans (h.orderly.sound.locked t () hholds)
      exact fails_of_fault (by simp [hinUse])
    · cases hmembers.symm.trans heq

/-! ## Where no thread can take a step, nor the destructor -/

theorem pool_of_rest (hrest : ∀ a : TeardownAction n, a.Own → s.Allowed a → s.step a = none)
    (b : PoolAction n) (hb : b.Own) : s.pool.step b = none := by
  have hallowed : s.Allowed (.pool b) :=
    allowed_pool_iff.mpr fun _ t handle heq => by simp [heq] at hb
  exact Option.map_eq_none_iff.mp (hrest (.pool b) hb hallowed)

/-- **Nobody is in the pool any more.** -/
theorem destroyed_of_rest (h : s.Kept) (hw : s.pool.Watched) (hall : s.pool.notifiedAll)
    (hrest : ∀ a : TeardownAction n, a.Own → s.Allowed a → s.step a = none) : s.Destroyed := by
  have hpool := pool_of_rest hrest
  have hback : ∀ b : PoolAction n, b.Own → s.pool.NobodyBack b → s.pool.step b = none :=
    fun b hb _ => hpool b hb
  have hreturned : ∀ i, s.pool.threads (.worker i) = .returned := fun i => by
    rcases PoolState.threads_of_rest h.orderly hback (.worker i) with
      hpoint | hpoint | hpoint | hpoint
    · exact absurd hpoint (h.orderly.worker i)
    · exact absurd hpoint ((hw.notifiedAll hall).2 i).2
    · exact absurd hpoint (PoolState.ne_running_of_rest hpool _)
    · exact hpoint
  have hgone : s.members = [] := by
    cases hmembers : s.members with
    | nil => rfl
    | cons m members =>
      have hunneeded : ∀ k, s.pool.Unneeded k := fun k => by
        constructor
        · intro i
          rw [hreturned i]
          cases k <;> rfl
        · rw [PoolState.free_of_rest h.orderly hback]
          exact fun t ht => by cases ht
      have hdestroy : s.step .destroyMember = none :=
        hrest .destroyMember trivial fun k _ => hunneeded k
      cases hdestroy.symm.trans
        (step_destroyMember_eq_some.mpr ⟨m, members, hmembers, hall, rfl⟩)
  exact ⟨hgone, ⟨hreturned, PoolState.resumed_of_rest h.orderly hback⟩,
    h.orderly.sound.noFault, h.noFault⟩

/-! ## Runs -/

/-- What is left for the threads to do, and for the destructor. -/
def cost (s : TeardownState n) : ℕ := s.pool.cost + s.members.length

/-- The destructor's body is done. -/
structure Ending (s : TeardownState n) : Prop where
  kept : s.Kept
  watched : s.pool.Watched
  notifiedAll : s.pool.notifiedAll

/-- **Every step of a thread or the destructor uses something up.** -/
theorem ending_of_own {s s' : TeardownState (n + 1)} {a : TeardownAction (n + 1)} (h : s.Ending)
    (ha : a.Own) (hallowed : s.Allowed a) (hstep : s.step a = some s') :
    s'.Ending ∧ s'.cost < s.cost := by
  have hkept := kept_of_step h.kept hstep hallowed
  cases a with
  | pool b =>
    obtain ⟨pool, hpool, rfl⟩ := step_pool_eq_some.mp hstep
    obtain ⟨-, hall, hnobody⟩ := PoolState.eq_of_own ha hpool
    refine ⟨⟨hkept, PoolState.watched_of_step h.watched hpool hnobody, hall ▸ h.notifiedAll⟩, ?_⟩
    exact Nat.add_lt_add_right (PoolState.cost_lt_of_own h.kept.orderly ha hpool) _
  | destroyMember =>
    obtain ⟨m, members, hmembers, -, rfl⟩ := step_destroyMember_eq_some.mp hstep
    refine ⟨⟨hkept, h.watched, h.notifiedAll⟩, ?_⟩
    simp [cost, hmembers]

/-- **A run up to the end of the destructor's body.** -/
theorem kept_watched_of_run {s : TeardownState (n + 1)} {actions : List (TeardownAction (n + 1))}
    (hrun : (teardownSystem (n + 1)).run actions = some s)
    (hallowed : ∀ m ∈ (teardownSystem (n + 1)).moves actions,
      m.src.Allowed m.act ∧ m.src.NobodyAbout m.act) : s.Kept ∧ s.pool.Watched := by
  refine System.forall_visited_of_moves (C := fun s a => s.Allowed a ∧ s.NobodyAbout a)
    (fun s : TeardownState (n + 1) => s.Kept ∧ s.pool.Watched)
    ⟨kept_init _, PoolState.watched_init _⟩ (fun s a t h hstep hC => ?_) hallowed s
    (System.mem_visited_of_run _ hrun)
  refine ⟨kept_of_step h.1 hstep hC.1, ?_⟩
  cases a with
  | pool b =>
    obtain ⟨pool, hpool, rfl⟩ := step_pool_eq_some.mp hstep
    exact PoolState.watched_of_step h.2 hpool hC.2
  | destroyMember =>
    obtain ⟨m, members, -, -, rfl⟩ := step_destroyMember_eq_some.mp hstep
    exact h.2

end TeardownState

section Runs

variable (n : ℕ) (actions : List (TeardownAction (n + 1)))

/-- **No member of the pool is used after it has gone exactly as long as each goes when nobody is on
the way to it**, and nothing is put in after the first.  In every such run in which `notify_all`
found nobody between the predicate and the sleep, the destructor ends then, where the coroutines
come back: every worker has returned, and has resumed what it took. -/
theorem destroyed_of_run :
    (teardownSystem (n + 1)).ExactFor (fun s => s.fault = false) TeardownState.Allowed actions ∧
      ∀ s, (teardownSystem (n + 1)).run actions = some s →
        (∀ m ∈ (teardownSystem (n + 1)).moves actions,
          m.src.Allowed m.act ∧ m.src.NobodyAbout m.act) →
        s.pool.notifiedAll →
        ((teardownSystem (n + 1)).guard TeardownState.Allowed).Inevitably TeardownAction.Own
          TeardownState.Destroyed s := by
  constructor
  · exact System.exactFor_of_inv TeardownState.Kept (TeardownState.kept_init _)
      (fun s h => h.noFault) (fun s a t h => TeardownState.kept_of_step h)
      (fun s a t h => TeardownState.fails_of_not_allowed h) actions
  · intro s hrun hallowed hall
    obtain ⟨hkept, hwatched⟩ := TeardownState.kept_watched_of_run hrun hallowed
    refine System.inevitably_of_cost TeardownState.Ending TeardownState.cost
      (fun s a t h ha hstep => ?_) (fun s h hrest => ?_) ⟨hkept, hwatched, hall⟩
    · obtain ⟨hallowed, hstep⟩ := (System.step_guard_eq_some _).mp hstep
      exact TeardownState.ending_of_own h ha hallowed hstep
    · exact TeardownState.destroyed_of_rest h.kept h.watched h.notifiedAll
        fun a ha hallowed => (if_pos hallowed).symm.trans (hrest a ha)

end Runs

/-- The only worker has popped a handle when the stop is requested, and unlocks when the queue and
the condition variable have gone. -/
def tearsDown : List (TeardownAction 1) :=
  let worker : PoolThread 1 := .worker ⟨0, Nat.one_pos⟩
  [.pool (.enqueue (.caller 0) 7), .pool (.go (.caller 0)), .pool (.notifyOne (.caller 0) none),
    .pool (.go (.caller 0)), .pool (.go worker), .pool (.go worker), .pool (.go worker),
    .pool (.go worker), .pool (.go worker), .pool .requestStop, .pool .notifyAll, .destroyMember,
    .destroyMember, .pool (.go worker), .destroyMember]

theorem destroyed_tearsDown : ∃ s, (teardownSystem 1).run tearsDown = some s ∧ s.pool.notifiedAll ∧
    ((teardownSystem 1).guard TeardownState.Allowed).Inevitably TeardownAction.Own
      TeardownState.Destroyed s := by
  obtain ⟨s, hs⟩ : ∃ s, (teardownSystem 1).run tearsDown = some s := ⟨_, rfl⟩
  have hall : s.pool.notifiedAll := by
    rw [← Option.some.inj hs]
  exact ⟨s, hs, hall, (destroyed_of_run 0 tearsDown).2 s hs (by decide +kernel) hall⟩

end YServer
