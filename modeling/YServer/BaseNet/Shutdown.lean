import YServer.BaseNet.ThreadPool

/-!
# BaseNet/Shutdown — who sleeps through the stop

The predicate of the wait reads the stop, and its `false` is known to be current while the lock is
held.  The queue changes under that lock, and the stop does not:

    worker        lock ─▸ predicate: false ─▸ ┄┄┄┄┄┄┄┄┄┄┄┄┄┄┄┄┄┄┄┄┄┄┄┄ ─▸ block
    ~thread_pool                              request_stop ─▸ notify_all

A worker caught in between sleeps on.  It is the only one: whenever `notify_all` finds nobody there,
no worker is asleep from then on (`noSleeper_exactFor`).
-/

namespace YServer

open Machinery

namespace PoolState

variable {n : ℕ}

/-! ## What the pool is to do -/

/-- Nobody is asleep once `notify_all` has been called. -/
def Woken (s : PoolState n) : Prop :=
  s.notifiedAll → ∀ i, s.threads (.worker i) ≠ .blocked

/-- Where there is work, somebody is up… -/
def Served (s : PoolState n) : Prop :=
  s.queue ≠ [] → ∃ i, s.threads (.worker i) ≠ .blocked

/-- …or `enqueue` has still to notify. -/
def Noticed (s : PoolState n) : Prop :=
  s.queue ≠ [] → (∃ t, s.threads t = .notifying) ∨ ∃ i, s.threads (.worker i) ≠ .blocked

/-- `notify_all` finds no worker between the predicate and the sleep. -/
def NobodyAbout (s : PoolState n) : PoolAction n → Prop
  | .notifyAll => ∀ i, s.threads (.worker i) ≠ .blocking
  | _ => True

/-- A push finds somebody up. -/
def SomebodyUp (s : PoolState n) : PoolAction n → Prop
  | .go t => (∃ handle, s.threads t = .pushing handle) → ∃ i, s.threads (.worker i) ≠ .blocked
  | _ => True

/-! ## Steps of a thread -/

variable {s s' : PoolState n} {t : PoolThread n}

/-- **What a thread's own step does**, as far as the sleepers are concerned: from where it falls
asleep, and when it gets there. -/
structure Gone (s : PoolState n) (t : PoolThread n) (point : PoolPoint) (s' : PoolState n) :
    Prop where
  threads : s'.threads = s.moved t point
  source : s.threads t ≠ .notifying ∧ s.threads t ≠ .blocked
  blocked : point = .blocked → s.threads t = .blocking
  blocking : point = .blocking → s.queue = [] ∧ ¬ s.stop
  stop : s'.stop = s.stop
  notifiedAll : s'.notifiedAll = s.notifiedAll
  /-- The queue changes under the lock… -/
  queue : s'.queue = s.queue ∨ (s.threads t).holds = some () ∧ point ≠ .blocking
  /-- …and grows only in a push. -/
  nonempty : s'.queue ≠ [] → s.queue ≠ [] ∨
    point = .notifying ∧ ∃ handle, s.threads t = .pushing handle

theorem go_pushing {handle : ℕ} (ht : s.threads t = .pushing handle) : s.go t = some { s with
    queue := s.queue ++ [handle]
    enqueued := s.enqueued ++ [handle]
    threads := s.moved t .notifying } := by
  simp only [go, ht]

theorem go_blocking (ht : s.threads t = .blocking) :
    s.go t = some { s with mutex := none, threads := s.moved t .blocked } := by
  simp only [go, ht]

theorem gone_of_go (h : s.go t = some s') : ∃ point, Gone s t point s' := by
  cases goes_of_go h with
  | walk mutex point hwalks =>
    exact ⟨point, rfl, hwalks.source, hwalks.blocked, hwalks.blocking, rfl, rfl, Or.inl rfl, Or.inl⟩
  | push handle ht =>
    exact ⟨_, rfl, by simp [ht], by simp, by simp, rfl, rfl, Or.inr ⟨by simp [ht], by simp⟩,
      fun _ => Or.inr ⟨rfl, handle, ht⟩⟩
  | pop handle queue ht hqueue =>
    exact ⟨_, rfl, by simp [ht], by simp, by simp, rfl, rfl, Or.inr ⟨by simp [ht], by simp⟩,
      fun _ => Or.inl (hqueue ▸ List.cons_ne_nil _ _)⟩
  | resume k handle ht =>
    exact ⟨_, rfl, by simp [ht], by simp, by simp, rfl, rfl, Or.inl rfl, Or.inl⟩
  | fault ht hqueue =>
    exact ⟨.popping, by rw [moved, ← ht, Function.update_eq_self], by simp [ht], by simp, by simp,
      rfl, rfl, Or.inl rfl, Or.inl⟩

/-! ## Steps that wake -/

/-- **What the other steps do**: nobody falls asleep, and a notification is sent for somebody. -/
structure Stirs (s : PoolState n) (a : PoolAction n) (s' : PoolState n) : Prop where
  queue : s'.queue = s.queue
  blocking : ∀ t, s'.threads t = .blocking → s.threads t = .blocking
  blocked : ∀ t, s'.threads t = .blocked → s.threads t = .blocked
  notifying : ∀ t, s.threads t = .notifying →
    s'.threads t = .notifying ∨ ∃ i, s'.threads (.worker i) ≠ .blocked
  stop : s.stop → s'.stop
  notifiedAll : s'.notifiedAll → s.notifiedAll ∨
    a = .notifyAll ∧ s'.stop ∧ ∀ i, s'.threads (.worker i) ≠ .blocked

theorem wokenAll_ne_blocked (s : PoolState n) (t : PoolThread n) : s.wokenAll t ≠ .blocked := by
  by_cases ht : s.threads t = .blocked
  · rw [wokenAll, if_pos ht]
    simp
  · rwa [wokenAll, if_neg ht]

/-- A thread gets somewhere else than to sleep. -/
theorem stirs_moved {a : PoolAction n} {point : PoolPoint} {mutex : Option (PoolThread n)}
    (hblocking : point ≠ .blocking) (hblocked : point ≠ .blocked)
    (hnotifying : ∀ u, s.threads u = .notifying →
      s.moved t point u = .notifying ∨ ∃ i, s.moved t point (.worker i) ≠ .blocked) :
    Stirs s a { s with mutex, threads := s.moved t point } where
  queue := rfl
  blocking _ hu := (of_update_eq hu hblocking).2
  blocked _ hu := (of_update_eq hu hblocked).2
  notifying := hnotifying
  stop := id
  notifiedAll := Or.inl

theorem stirs_of_step {s s' : PoolState (n + 1)} {a : PoolAction (n + 1)}
    (h : s.step a = some s') (hgo : ∀ t, a ≠ .go t) : Stirs s a s' := by
  cases a with
  | go t => exact absurd rfl (hgo t)
  | enqueue t handle =>
    obtain ⟨⟨ht, -⟩, heq⟩ := Option.ite_none_right_eq_some.mp h
    refine Option.some.inj heq ▸ stirs_moved (by simp) (by simp) fun u hu => Or.inl ?_
    have hne : u ≠ t := by
      rintro rfl
      cases u <;> cases ht.symm.trans hu
    exact (Function.update_of_ne hne _ _).trans hu
  | notifyOne t woken =>
    cases woken with
    | none =>
      -- somebody is up, as there is a worker
      obtain ⟨⟨-, hawake⟩, heq⟩ := Option.ite_none_right_eq_some.mp h
      refine Option.some.inj heq ▸ stirs_moved (by simp) (by simp)
        fun _ _ => Or.inr ⟨0, fun hu => ?_⟩
      exact hawake 0 (of_update_eq hu (by simp)).2
    | some i =>
      obtain ⟨-, heq⟩ := Option.ite_none_right_eq_some.mp h
      obtain rfl := Option.some.inj heq
      have hold : ∀ u point, point ≠ .leaving → point ≠ .waking →
          Function.update (s.moved t .leaving) (.worker i) .waking u = point →
          s.threads u = point := fun u point hne hne' hu =>
        (of_update_eq (of_update_eq hu hne'.symm).2 hne.symm).2
      refine ⟨rfl, fun u => hold u _ (by simp) (by simp), fun u => hold u _ (by simp) (by simp),
        fun u _ => Or.inr ⟨i, fun hu => ?_⟩, id, Or.inl⟩
      cases (Function.update_self ..).symm.trans hu
  | wake i =>
    obtain ⟨-, heq⟩ := Option.ite_none_right_eq_some.mp h
    refine Option.some.inj heq ▸ stirs_moved (by simp) (by simp)
      fun _ _ => Or.inr ⟨i, fun hu => ?_⟩
    cases (Function.update_self ..).symm.trans hu
  | requestStop =>
    obtain ⟨-, heq⟩ := Option.ite_none_left_eq_some.mp h
    obtain rfl := Option.some.inj heq
    exact ⟨rfl, fun _ => id, fun _ => id, fun _ => Or.inl, fun _ => rfl, Or.inl⟩
  | notifyAll =>
    obtain ⟨⟨hstop, -⟩, heq⟩ := Option.ite_none_right_eq_some.mp h
    obtain rfl := Option.some.inj heq
    exact ⟨rfl, fun _ hu => of_wokenAll_eq hu (by simp), fun _ hu => of_wokenAll_eq hu (by simp),
      fun _ hu => Or.inr ⟨0, s.wokenAll_ne_blocked _⟩, fun _ => hstop,
      fun _ => Or.inr ⟨rfl, hstop, fun _ => s.wokenAll_ne_blocked _⟩⟩

/-! ## The invariant -/

/-- **Who is about to fall asleep, and who is**: where the queue is empty, and before the stop. -/
structure Watched (s : PoolState n) : Prop where
  sound : s.Sound
  blocking : ∀ t, s.threads t = .blocking → s.queue = []
  notifiedAll : s.notifiedAll → s.stop ∧
    ∀ i, s.threads (.worker i) ≠ .blocking ∧ s.threads (.worker i) ≠ .blocked
  noticed : s.Noticed

theorem watched_init (n : ℕ) : (poolSystem n).init.Watched where
  sound := sound_init n
  blocking t h := by cases t <;> cases h
  notifiedAll h := by cases h
  noticed h := absurd rfl h

theorem Watched.woken (h : s.Watched) : s.Woken := fun hall i => ((h.notifiedAll hall).2 i).2

/-- Who falls asleep leaves no work behind. -/
theorem Gone.ne_blocked {point : PoolPoint} (hgone : Gone s t point s') (h : s.Watched)
    (hqueue : s'.queue ≠ []) : point ≠ .blocked := by
  rintro rfl
  rcases hgone.nonempty hqueue with hold | ⟨heq, -⟩
  · exact hold (h.blocking t (hgone.blocked rfl))
  · cases heq

/-- Who is up and does not fall asleep is up. -/
theorem Gone.up {point : PoolPoint} (hgone : Gone s t point s') (hpoint : point ≠ .blocked)
    (hup : ∃ i, s.threads (.worker i) ≠ .blocked) : ∃ i, s'.threads (.worker i) ≠ .blocked := by
  obtain ⟨i, hi⟩ := hup
  refine ⟨i, fun heq => ?_⟩
  rw [hgone.threads] at heq
  exact hi (of_update_eq heq hpoint).2

theorem Gone.watched {point : PoolPoint} (hgone : Gone s t point s') (h : s.Watched)
    (hsound : s'.Sound) : s'.Watched where
  sound := hsound
  blocking u hu := by
    rw [hgone.threads] at hu
    rcases eq_or_ne u t with rfl | hne
    · rw [moved, Function.update_self] at hu
      rcases hgone.queue with hqueue | ⟨-, hpoint⟩
      · exact hqueue.trans (hgone.blocking hu).1
      · exact absurd hu hpoint
    · rw [moved, Function.update_of_ne hne] at hu
      -- nobody else changes the queue, for it is under the lock
      rcases hgone.queue with hqueue | ⟨hholds, -⟩
      · exact hqueue.trans (h.blocking u hu)
      · refine absurd (h.sound.locked.unique ?_ hholds) hne
        rw [hu]
        rfl
  notifiedAll hall := by
    obtain ⟨hstop, hup⟩ := h.notifiedAll (hgone.notifiedAll ▸ hall)
    have hpoint : point ≠ .blocking := fun heq => (hgone.blocking heq).2 hstop
    refine ⟨hgone.stop ▸ hstop, fun i => ?_⟩
    rw [hgone.threads]
    rcases eq_or_ne (.worker i) t with rfl | hne
    · rw [moved, Function.update_self]
      exact ⟨hpoint, fun heq => (hup i).1 (hgone.blocked heq)⟩
    · rw [moved, Function.update_of_ne hne]
      exact hup i
  noticed hqueue := by
    rcases hgone.nonempty hqueue with hold | ⟨rfl, -⟩
    · rcases h.noticed hold with ⟨u, hu⟩ | hup
      · have hne : u ≠ t := fun heq => hgone.source.1 (heq ▸ hu)
        exact Or.inl ⟨u, by rw [hgone.threads, moved, Function.update_of_ne hne, hu]⟩
      · exact Or.inr (hgone.up (hgone.ne_blocked h hqueue) hup)
    · exact Or.inl ⟨t, by rw [hgone.threads, moved, Function.update_self]⟩

theorem Stirs.up {a : PoolAction n} (hstirs : Stirs s a s')
    (hup : ∃ i, s.threads (.worker i) ≠ .blocked) : ∃ i, s'.threads (.worker i) ≠ .blocked :=
  hup.imp fun _ hi heq => hi (hstirs.blocked _ heq)

theorem Stirs.watched {a : PoolAction n} (hstirs : Stirs s a s') (h : s.Watched)
    (hsound : s'.Sound) (hnobody : s.NobodyAbout a) : s'.Watched where
  sound := hsound
  blocking t ht := hstirs.queue.trans (h.blocking t (hstirs.blocking t ht))
  notifiedAll hall := by
    rcases hstirs.notifiedAll hall with hall | ⟨rfl, hstop, hup⟩
    · obtain ⟨hstop, hup⟩ := h.notifiedAll hall
      exact ⟨hstirs.stop hstop, fun i =>
        (hup i).imp (mt (hstirs.blocking _)) (mt (hstirs.blocked _))⟩
    · exact ⟨hstop, fun i => ⟨mt (hstirs.blocking _) (hnobody i), hup i⟩⟩
  noticed hqueue := by
    rcases h.noticed (hstirs.queue ▸ hqueue) with ⟨t, ht⟩ | hup
    · exact (hstirs.notifying t ht).imp_left fun ht => ⟨t, ht⟩
    · exact Or.inr (hstirs.up hup)

/-! ## Every step -/

/-- **Who was about to block when `notify_all` was called blocks.** -/
theorem sleeps_on {i : Fin n} (hall : s.notifiedAll) (hi : s.threads (.worker i) = .blocking) :
    ∃ bs u, (poolSystem n).runFrom s bs = some u ∧ ¬ u.Woken := by
  have hstep : (poolSystem n).step s (.go (.worker i)) =
      some { s with mutex := none, threads := s.moved (.worker i) .blocked } := go_blocking hi
  refine ⟨[.go (.worker i)], { s with mutex := none, threads := s.moved (.worker i) .blocked },
    ?_, fun hwoken => hwoken hall i (Function.update_self ..)⟩
  rw [System.runFrom_cons, hstep]
  rfl

section Steps

variable {s s' : PoolState (n + 1)} {a : PoolAction (n + 1)}

/-- A step is a thread's own, or wakes. -/
theorem gone_or_stirs (h : s.step a = some s') :
    (∃ t point, a = .go t ∧ Gone s t point s') ∨ Stirs s a s' := by
  cases a with
  | go t =>
    obtain ⟨point, hgone⟩ := gone_of_go h
    exact Or.inl ⟨t, point, rfl, hgone⟩
  | _ => exact Or.inr (stirs_of_step h nofun)

theorem watched_of_step (h : s.Watched) (hstep : s.step a = some s') (hnobody : s.NobodyAbout a) :
    s'.Watched := by
  have hsound := sound_of_step h.sound hstep
  rcases gone_or_stirs hstep with ⟨t, point, -, hgone⟩ | hstirs
  · exact hgone.watched h hsound
  · exact hstirs.watched h hsound hnobody

theorem served_of_step (h : s.Watched) (hserved : s.Served) (hstep : s.step a = some s')
    (hup : s.SomebodyUp a) : s'.Served := by
  intro hqueue
  rcases gone_or_stirs hstep with ⟨t, point, rfl, hgone⟩ | hstirs
  · refine hgone.up (hgone.ne_blocked h hqueue) ?_
    rcases hgone.nonempty hqueue with hold | ⟨-, hpushing⟩
    · exact hserved hold
    · exact hup hpushing
  · exact hstirs.up (hserved (hstirs.queue ▸ hqueue))

/-- Whom `notify_all` finds there sleeps on. -/
theorem fails_of_nobodyAbout (h : s.step a = some s') (hmissed : ¬ s.NobodyAbout a) :
    ∃ bs u, (poolSystem (n + 1)).runFrom s' bs = some u ∧ ¬ u.Woken := by
  cases a with
  | notifyAll =>
    obtain ⟨i, hi⟩ := not_forall.mp hmissed
    obtain ⟨-, heq⟩ := Option.ite_none_right_eq_some.mp h
    obtain rfl := Option.some.inj heq
    have hblocking : s.wokenAll (.worker i) = .blocking := by
      rw [wokenAll, not_not.mp hi]
      rfl
    exact sleeps_on rfl hblocking
  | _ => exact absurd trivial hmissed

/-- A push that finds everybody asleep leaves work behind them until it notifies. -/
theorem not_served_of_step (h : s.step a = some s') (hmissed : ¬ s.SomebodyUp a) :
    ¬ s'.Served := by
  cases a with
  | go t =>
    obtain ⟨⟨handle, ht⟩, hasleep⟩ := Classical.not_imp.mp hmissed
    rw [step, go_pushing ht] at h
    obtain rfl := Option.some.inj h
    intro hserved
    obtain ⟨i, hi⟩ := hserved (List.concat_ne_nil _ _)
    have hblocked := not_not.mp (not_exists.mp hasleep i)
    have hne : .worker i ≠ t := by
      rintro rfl
      cases hblocked.symm.trans ht
    exact hi ((Function.update_of_ne hne _ _).trans hblocked)
  | _ => exact absurd trivial hmissed

end Steps

end PoolState

/-- **Nobody sleeps through the stop, and nobody over work, exactly as long as `notify_all` finds no
worker between the predicate and the sleep**; and work is never behind sleepers only, not even
until `enqueue` notifies, as long as its push finds somebody up, too. -/
theorem noSleeper_exactFor (n : ℕ) (actions : List (PoolAction (n + 1))) :
    (poolSystem (n + 1)).ExactFor (fun s => s.Woken ∧ s.Noticed) PoolState.NobodyAbout actions ∧
      (poolSystem (n + 1)).ExactFor (fun s => s.Woken ∧ s.Served)
        (fun s a => s.NobodyAbout a ∧ s.SomebodyUp a) actions := by
  constructor
  · refine System.exactFor_of_inv PoolState.Watched (PoolState.watched_init _)
      (fun s h => ⟨h.woken, h.noticed⟩) (fun s a t => PoolState.watched_of_step)
      (fun s a t _ hstep hmissed => ?_) actions
    obtain ⟨bs, u, hrun, hu⟩ := PoolState.fails_of_nobodyAbout hstep hmissed
    exact ⟨bs, u, hrun, fun h => hu h.1⟩
  · refine System.exactFor_of_inv (fun s => s.Watched ∧ s.Served)
      ⟨PoolState.watched_init _, fun h => absurd rfl h⟩ (fun s h => ⟨h.1.woken, h.2⟩)
      (fun s a t h hstep hC => ⟨PoolState.watched_of_step h.1 hstep hC.1,
        PoolState.served_of_step h.1 h.2 hstep hC.2⟩)
      (fun s a t _ hstep hmissed => ?_) actions
    rcases not_and_or.mp hmissed with hmissed | hmissed
    · obtain ⟨bs, u, hrun, hu⟩ := PoolState.fails_of_nobodyAbout hstep hmissed
      exact ⟨bs, u, hrun, fun h => hu h.1⟩
    · exact ⟨[], t, rfl, fun h => PoolState.not_served_of_step hstep hmissed h.2⟩

/-- The only worker finds no work, and blocks after the destructor has notified. -/
def sleepsOn : List (PoolAction 1) :=
  let worker := .worker ⟨0, Nat.one_pos⟩
  [.go worker, .go worker, .go worker, .requestStop, .notifyAll, .go worker]

/-- It is asleep then, and the destructor waits for it. -/
theorem not_noSleeper_sleepsOn :
    ¬ ∀ s ∈ (poolSystem 1).visited sleepsOn, s.Woken ∧ s.Served := by
  intro h
  obtain ⟨t, ht⟩ : ∃ t, (poolSystem 1).run sleepsOn = some t := ⟨_, rfl⟩
  have hwoken := (h t ((poolSystem 1).mem_visited_of_run ht)).1
  rw [← Option.some.inj ht] at hwoken
  exact hwoken rfl ⟨0, Nat.one_pos⟩ rfl

end YServer
