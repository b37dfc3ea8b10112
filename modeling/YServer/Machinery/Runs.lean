import Mathlib.Algebra.BigOperators.Group.Finset.Piecewise
import Mathlib.Data.List.Basic
import Mathlib.Data.List.Induction

/-!
# Machinery/Runs — the runs of a partial step function

A `System` moves by one action at a time, and an action it does not enable gives no next state.
A run is the list of actions it is offered: `moves` is what it does with them, `visited` the states
it passes through.  Three rules carry the results about whole runs:

* `forall_visited_of_moves` — an invariant kept by the moves that meet a condition holds throughout
  every run all of whose moves meet it;
* `forall_visited_iff_moves` — and where a move that misses the condition leaves the property
  behind, the condition is exact;
* `inv_or_broken_of_run` — so it is where such a move does damage that stays to the end of the run.

`history_of_run` is the invariant rule for what relates the moves made so far to the state, and
`run_of_simulates` the one for what relates the state to a state of another system, `moves_of_maps`
where a function does.

`Inevitably` is about what a system comes to by itself, whatever it does next; of `recorded`, it may
be about what it has done on the way.  `Inevitably.of_maps` carries it over from another system.

Damage may also wait for its occasion: `ExactFor` asks of a condition that runs meeting it have the
property throughout, and that a run that misses it can go on to lose the property.
-/

namespace Machinery

/-- A system that moves by one action at a time. -/
structure System (σ α : Type*) where
  /-- The state it starts in. -/
  init : σ
  /-- The state after an action, if the action is enabled. -/
  step : σ → α → Option σ

/-- One move of a run. -/
structure Move (σ α : Type*) where
  src : σ
  act : α
  dst : σ

/-- A move, as it looks from another kind of state. -/
def Move.map {σ τ α : Type*} (f : σ → τ) (m : Move σ α) : Move τ α := ⟨f m.src, m.act, f m.dst⟩

namespace System

variable {σ α : Type*} (S : System σ α)

/-! ## Runs -/

/-- The moves a list of actions makes from a state, up to the first action that is not enabled. -/
def movesFrom : σ → List α → List (Move σ α)
  | _, [] => []
  | s, a :: as =>
    match S.step s a with
    | none => []
    | some t => ⟨s, a, t⟩ :: movesFrom t as

/-- The moves of the run a list of actions makes. -/
def moves (as : List α) : List (Move σ α) := S.movesFrom S.init as

/-- The states the run passes through, the initial one included. -/
def visited (as : List α) : List σ := S.init :: (S.moves as).map Move.dst

/-- The state after a list of actions, all of which must be enabled. -/
def runFrom : σ → List α → Option σ
  | s, [] => some s
  | s, a :: as => (S.step s a).bind fun t => runFrom t as

/-- The state after a list of actions taken from the initial state. -/
def run (as : List α) : Option σ := S.runFrom S.init as

/-- The system left with the actions that meet a condition. -/
def guard (G : σ → α → Prop) [∀ s a, Decidable (G s a)] : System σ α where
  init := S.init
  step s a := if G s a then S.step s a else none

theorem step_guard_eq_some {G : σ → α → Prop} [∀ s a, Decidable (G s a)] {s t : σ} {a : α} :
    (S.guard G).step s a = some t ↔ G s a ∧ S.step s a = some t :=
  Option.ite_none_right_eq_some

@[simp] theorem movesFrom_nil (s : σ) : S.movesFrom s [] = [] := rfl

theorem movesFrom_cons_of_step {s t : σ} {a : α} (h : S.step s a = some t) (as : List α) :
    S.movesFrom s (a :: as) = ⟨s, a, t⟩ :: S.movesFrom t as := by
  simp only [movesFrom, h]

theorem movesFrom_cons_of_stuck {s : σ} {a : α} (h : S.step s a = none) (as : List α) :
    S.movesFrom s (a :: as) = [] := by
  simp only [movesFrom, h]

@[simp] theorem runFrom_nil (s : σ) : S.runFrom s [] = some s := rfl

@[simp] theorem runFrom_cons (s : σ) (a : α) (as : List α) :
    S.runFrom s (a :: as) = (S.step s a).bind fun t => S.runFrom t as := rfl

/-- **Runs compose.** -/
theorem runFrom_append (as bs : List α) (s : σ) :
    S.runFrom s (as ++ bs) = (S.runFrom s as).bind fun t => S.runFrom t bs := by
  induction as generalizing s with
  | nil => rfl
  | cons a as ih =>
    rw [List.cons_append, runFrom_cons, runFrom_cons, Option.bind_assoc]
    exact congrArg (S.step s a).bind (funext fun t => ih t)

/-- A run goes on with one more step. -/
theorem run_concat {as : List α} {s t : σ} {a : α} (h : S.run as = some s)
    (hst : S.step s a = some t) : S.run (as ++ [a]) = some t := by
  rw [run] at h
  rw [run, runFrom_append, h, Option.bind_some, runFrom_cons, hst]
  rfl

/-- The end of a run is a state it passes through. -/
theorem mem_visited_of_runFrom {as : List α} {s t : σ} (h : S.runFrom s as = some t) :
    t = s ∨ t ∈ (S.movesFrom s as).map Move.dst := by
  induction as generalizing s with
  | nil => exact Or.inl (Option.some.inj h).symm
  | cons a as ih =>
    obtain ⟨u, hu, hrest⟩ := Option.bind_eq_some_iff.mp h
    rw [S.movesFrom_cons_of_step hu, List.map_cons]
    rcases ih hrest with rfl | hmem
    · exact Or.inr List.mem_cons_self
    · exact Or.inr (List.mem_cons_of_mem _ hmem)

theorem mem_visited_of_run {as : List α} {t : σ} (h : S.run as = some t) : t ∈ S.visited as :=
  List.mem_cons.mpr (S.mem_visited_of_runFrom h)

/-- A run moves by the actions it is offered. -/
theorem act_mem_of_mem_movesFrom {as : List α} {s : σ} {m : Move σ α}
    (h : m ∈ S.movesFrom s as) : m.act ∈ as := by
  induction as generalizing s with
  | nil => cases h
  | cons a as ih =>
    cases hstep : S.step s a with
    | none => simp [S.movesFrom_cons_of_stuck hstep] at h
    | some t =>
      rw [S.movesFrom_cons_of_step hstep] at h
      rcases List.mem_cons.mp h with rfl | h
      · exact List.mem_cons_self
      · exact List.mem_cons_of_mem _ (ih h)

/-! ## Invariants of whole runs -/

section Rules

variable {S} {Inv P : σ → Prop} {C : σ → α → Prop}

theorem forall_dst_of_movesFrom
    (hkeep : ∀ s a t, Inv s → S.step s a = some t → C s a → Inv t) {as : List α} :
    ∀ {s : σ}, Inv s → (∀ m ∈ S.movesFrom s as, C m.src m.act) →
      ∀ t ∈ (S.movesFrom s as).map Move.dst, Inv t := by
  induction as with
  | nil => intro s _ _ t ht; simp at ht
  | cons a as ih =>
    intro s hs hC t ht
    cases hstep : S.step s a with
    | none => simp [S.movesFrom_cons_of_stuck hstep] at ht
    | some u =>
      rw [S.movesFrom_cons_of_step hstep] at hC ht
      have hu : Inv u := hkeep s a u hs hstep (hC _ List.mem_cons_self)
      rw [List.map_cons, List.mem_cons] at ht
      rcases ht with rfl | ht
      · exact hu
      · exact ih hu (fun m hm => hC m (List.mem_cons_of_mem _ hm)) t ht

/-- **The invariant rule under a condition**: what the initial state has and every move that meets
the condition keeps holds in every state of a run all of whose moves meet it. -/
theorem forall_visited_of_moves (Inv : σ → Prop) (hinit : Inv S.init)
    (hkeep : ∀ s a t, Inv s → S.step s a = some t → C s a → Inv t) {as : List α}
    (hC : ∀ m ∈ S.moves as, C m.src m.act) : ∀ s ∈ S.visited as, Inv s := by
  intro s hs
  rcases List.mem_cons.mp hs with rfl | hs
  · exact hinit
  · exact forall_dst_of_movesFrom hkeep hinit hC s hs

/-- **The invariant rule.** -/
theorem forall_visited (Inv : σ → Prop) (hinit : Inv S.init)
    (hkeep : ∀ s a t, Inv s → S.step s a = some t → Inv t) (as : List α) :
    ∀ s ∈ S.visited as, Inv s :=
  forall_visited_of_moves (C := fun _ _ => True) Inv hinit
    (fun s a t hs hst _ => hkeep s a t hs hst)
    fun _ _ => trivial

theorem forall_movesFrom
    (hkeep : ∀ s a t, Inv s → S.step s a = some t → C s a → Inv t) {as : List α} :
    ∀ {s : σ}, Inv s → (∀ m ∈ S.movesFrom s as, C m.src m.act) →
      ∀ m ∈ S.movesFrom s as, Inv m.src ∧ S.step m.src m.act = some m.dst := by
  induction as with
  | nil => intro s _ _ m hm; simp at hm
  | cons a as ih =>
    intro s hs hC m hm
    cases hstep : S.step s a with
    | none => simp [S.movesFrom_cons_of_stuck hstep] at hm
    | some u =>
      rw [S.movesFrom_cons_of_step hstep] at hC hm
      rcases List.mem_cons.mp hm with rfl | hm
      · exact ⟨hs, hstep⟩
      · have hu : Inv u := hkeep s a u hs hstep (hC _ List.mem_cons_self)
        exact ih hu (fun m hm => hC m (List.mem_cons_of_mem _ hm)) m hm

/-- **The rule for moves**: each of them is a step out of a state with the invariant. -/
theorem forall_moves_of_moves (Inv : σ → Prop) (hinit : Inv S.init)
    (hkeep : ∀ s a t, Inv s → S.step s a = some t → C s a → Inv t) {as : List α}
    (hC : ∀ m ∈ S.moves as, C m.src m.act) :
    ∀ m ∈ S.moves as, Inv m.src ∧ S.step m.src m.act = some m.dst :=
  forall_movesFrom hkeep hinit hC

theorem forall_moves_of_dst
    (hkeep : ∀ s a t, Inv s → S.step s a = some t → C s a → Inv t)
    (hmiss : ∀ s a t, Inv s → S.step s a = some t → ¬ C s a → ¬ P t) {as : List α} :
    ∀ {s : σ}, Inv s → (∀ t ∈ (S.movesFrom s as).map Move.dst, P t) →
      ∀ m ∈ S.movesFrom s as, C m.src m.act := by
  induction as with
  | nil => intro s _ _ m hm; simp at hm
  | cons a as ih =>
    intro s hs hP m hm
    cases hstep : S.step s a with
    | none => simp [S.movesFrom_cons_of_stuck hstep] at hm
    | some u =>
      rw [S.movesFrom_cons_of_step hstep] at hP hm
      rw [List.map_cons] at hP
      have hC : C s a := by
        by_contra hmissed
        exact hmiss s a u hs hstep hmissed (hP u List.mem_cons_self)
      rcases List.mem_cons.mp hm with rfl | hm
      · exact hC
      · exact ih (hkeep s a u hs hstep hC) (fun t ht => hP t (List.mem_cons_of_mem _ ht)) m hm

/-- **The exact-condition rule**: where, in addition, the first move that misses the condition
leaves the property, the property holds throughout a run if and only if all its moves meet the
condition. -/
theorem forall_visited_iff_moves (Inv : σ → Prop) (hinit : Inv S.init) (hP : ∀ s, Inv s → P s)
    (hkeep : ∀ s a t, Inv s → S.step s a = some t → C s a → Inv t)
    (hmiss : ∀ s a t, Inv s → S.step s a = some t → ¬ C s a → ¬ P t) (as : List α) :
    (∀ s ∈ S.visited as, P s) ↔ ∀ m ∈ S.moves as, C m.src m.act := by
  refine ⟨fun h => ?_, fun hC s hs => hP s (forall_visited_of_moves Inv hinit hkeep hC s hs)⟩
  exact forall_moves_of_dst hkeep hmiss hinit fun t ht => h t (List.mem_cons_of_mem _ ht)

/-- What every action keeps is kept by a run. -/
theorem keep_of_runFrom {B : σ → Prop} (hkeep : ∀ s a t, B s → S.step s a = some t → B t)
    {as : List α} {s t : σ} (hs : B s) (hrun : S.runFrom s as = some t) : B t := by
  induction as generalizing s with
  | nil => exact Option.some.inj hrun ▸ hs
  | cons a as ih =>
    obtain ⟨u, hu, hrest⟩ := Option.bind_eq_some_iff.mp hrun
    exact ih (hkeep s a u hs hu) hrest

theorem inv_or_broken_of_runFrom {B : σ → Prop}
    (hkeep : ∀ s a t, Inv s → S.step s a = some t → C s a → Inv t)
    (hbreak : ∀ s a t, Inv s → S.step s a = some t → ¬ C s a → B t)
    (hstay : ∀ s a t, B s → S.step s a = some t → B t) {as : List α} {s t : σ} (hs : Inv s)
    (hrun : S.runFrom s as = some t) :
    (Inv t ∧ ∀ m ∈ S.movesFrom s as, C m.src m.act) ∨
      B t ∧ ¬ ∀ m ∈ S.movesFrom s as, C m.src m.act := by
  induction as generalizing s with
  | nil => exact Or.inl ⟨Option.some.inj hrun ▸ hs, fun m hm => absurd hm List.not_mem_nil⟩
  | cons a as ih =>
    obtain ⟨u, hu, hrest⟩ := Option.bind_eq_some_iff.mp hrun
    rw [S.movesFrom_cons_of_step hu, List.forall_mem_cons]
    by_cases hC : C s a
    · rcases ih (hkeep s a u hs hu hC) hrest with ⟨ht, hrest⟩ | ⟨ht, hrest⟩
      · exact Or.inl ⟨ht, hC, hrest⟩
      · exact Or.inr ⟨ht, fun h => hrest h.2⟩
    · exact Or.inr ⟨keep_of_runFrom hstay (hbreak s a u hs hu hC) hrest, fun h => hC h.1⟩

/-- **The rule for damage that stays**: where a move that misses the condition leaves something
broken for good, the end of a run is sound or broken as all its moves met the condition or not. -/
theorem inv_or_broken_of_run (Inv B : σ → Prop) (hinit : Inv S.init)
    (hkeep : ∀ s a t, Inv s → S.step s a = some t → C s a → Inv t)
    (hbreak : ∀ s a t, Inv s → S.step s a = some t → ¬ C s a → B t)
    (hstay : ∀ s a t, B s → S.step s a = some t → B t) {as : List α} {t : σ}
    (hrun : S.run as = some t) :
    (Inv t ∧ ∀ m ∈ S.moves as, C m.src m.act) ∨ B t ∧ ¬ ∀ m ∈ S.moves as, C m.src m.act :=
  inv_or_broken_of_runFrom hkeep hbreak hstay hinit hrun

end Rules

/-! ## What a run has done

`moves` is the history of a run; an invariant may relate it to the state the run ends in. -/

section History

variable {S}

theorem movesFrom_append {as : List α} {s t : σ} (h : S.runFrom s as = some t) (bs : List α) :
    S.movesFrom s (as ++ bs) = S.movesFrom s as ++ S.movesFrom t bs := by
  induction as generalizing s with
  | nil =>
    obtain rfl := Option.some.inj h
    rfl
  | cons a as ih =>
    obtain ⟨u, hu, hrest⟩ := Option.bind_eq_some_iff.mp h
    rw [List.cons_append, S.movesFrom_cons_of_step hu, S.movesFrom_cons_of_step hu, ih hrest]
    rfl

/-- A run that goes on with one more step has made one more move. -/
theorem moves_concat {as : List α} {s t : σ} {a : α} (h : S.run as = some s)
    (hst : S.step s a = some t) : S.moves (as ++ [a]) = S.moves as ++ [⟨s, a, t⟩] := by
  rw [moves, movesFrom_append h, S.movesFrom_cons_of_step hst]
  rfl

/-- …and the run before it ended in the state the step was taken from. -/
theorem run_concat_eq_some {as : List α} {a : α} {t : σ} (h : S.run (as ++ [a]) = some t) :
    ∃ s, S.run as = some s ∧ S.step s a = some t := by
  rw [run, runFrom_append] at h
  obtain ⟨s, hs, hrest⟩ := Option.bind_eq_some_iff.mp h
  obtain ⟨u, hu, hend⟩ := Option.bind_eq_some_iff.mp hrest
  exact ⟨s, hs, hu.trans hend⟩

/-- **The rule for histories**: what holds of no moves and the initial state, and what every move
that meets the condition keeps, holds of all the moves of a run and the state it ends in. -/
theorem history_of_run {C : σ → α → Prop} (Inv : List (Move σ α) → σ → Prop)
    (hinit : Inv [] S.init)
    (hkeep : ∀ ms s a t, Inv ms s → S.step s a = some t → C s a → Inv (ms ++ [⟨s, a, t⟩]) t)
    {as : List α} {t : σ} (hrun : S.run as = some t) (hC : ∀ m ∈ S.moves as, C m.src m.act) :
    Inv (S.moves as) t := by
  induction as using List.reverseRecOn generalizing t with
  | nil =>
    obtain rfl := Option.some.inj hrun
    exact hinit
  | append_singleton as a ih =>
    obtain ⟨s, hs, hst⟩ := run_concat_eq_some hrun
    rw [moves_concat hs hst, List.forall_mem_append, List.forall_mem_singleton] at hC
    rw [moves_concat hs hst]
    exact hkeep _ s a t (ih hs hC.1) hst hC.2

/-- **The rule for logs**: what holds of no actions and the initial state, and what every step
keeps, holds of all the actions of a run and the state it ends in. -/
theorem log_of_run (Inv : List α → σ → Prop) (hinit : Inv [] S.init)
    (hkeep : ∀ as s a t, Inv as s → S.step s a = some t → Inv (as ++ [a]) t) {as : List α} {t : σ}
    (hrun : S.run as = some t) : Inv as t := by
  induction as using List.reverseRecOn generalizing t with
  | nil =>
    obtain rfl := Option.some.inj hrun
    exact hinit
  | append_singleton as a ih =>
    obtain ⟨s, hs, hst⟩ := run_concat_eq_some hrun
    exact hkeep as s a t (ih hs) hst

variable (S) in
/-- The system with the moves it has made. -/
def recorded : System (List (Move σ α) × σ) α where
  init := ([], S.init)
  step s a := (S.step s.2 a).map fun t => (s.1 ++ [⟨s.2, a, t⟩], t)

theorem step_recorded_eq_some {s t : List (Move σ α) × σ} {a : α} :
    S.recorded.step s a = some t ↔ ∃ u, S.step s.2 a = some u ∧ (s.1 ++ [⟨s.2, a, u⟩], u) = t :=
  Option.map_eq_some_iff

variable (S) in
/-- The moves and the end of a run. -/
def Reached (s : List (Move σ α) × σ) : Prop := ∃ as, S.run as = some s.2 ∧ S.moves as = s.1

/-- A run that is reached goes on. -/
theorem Reached.concat {s : List (Move σ α) × σ} {a : α} {t : σ} (h : S.Reached s)
    (hst : S.step s.2 a = some t) : S.Reached (s.1 ++ [⟨s.2, a, t⟩], t) := by
  obtain ⟨as, hrun, hmoves⟩ := h
  exact ⟨as ++ [a], S.run_concat hrun hst, by rw [moves_concat hrun hst, hmoves]⟩

end History

/-! ## One system's runs as another's -/

section Simulation

variable {τ : Type*} {S} {T : System τ α} {C : σ → α → Prop}

theorem runFrom_of_simulates (R : σ → τ → Prop)
    (hstep : ∀ s a s' t, R s t → S.step s a = some s' → C s a →
      ∃ t', T.step t a = some t' ∧ R s' t')
    {as : List α} {s s' : σ} {t : τ} (h : R s t) (hrun : S.runFrom s as = some s')
    (hC : ∀ m ∈ S.movesFrom s as, C m.src m.act) : ∃ t', T.runFrom t as = some t' ∧ R s' t' := by
  induction as generalizing s t with
  | nil => exact ⟨t, rfl, Option.some.inj hrun ▸ h⟩
  | cons a as ih =>
    obtain ⟨u, hu, hrest⟩ := Option.bind_eq_some_iff.mp hrun
    rw [S.movesFrom_cons_of_step hu, List.forall_mem_cons] at hC
    obtain ⟨v, hv, huv⟩ := hstep s a u t h hu hC.1
    obtain ⟨t', ht', hend⟩ := ih huv hrest hC.2
    exact ⟨t', by rw [runFrom_cons, hv]; exact ht', hend⟩

/-- **The simulation rule**: where every move that meets the condition is one of the other system,
from related states to related states, so is every run all of whose moves meet it. -/
theorem run_of_simulates (R : σ → τ → Prop) (hinit : R S.init T.init)
    (hstep : ∀ s a s' t, R s t → S.step s a = some s' → C s a →
      ∃ t', T.step t a = some t' ∧ R s' t')
    {as : List α} {s : σ} (hrun : S.run as = some s) (hC : ∀ m ∈ S.moves as, C m.src m.act) :
    ∃ t, T.run as = some t ∧ R s t :=
  runFrom_of_simulates R hstep hinit hrun hC

theorem movesFrom_of_maps (f : σ → τ) (Inv : σ → Prop)
    (hstep : ∀ s a s', Inv s → S.step s a = some s' → C s a →
      T.step (f s) a = some (f s') ∧ Inv s')
    {as : List α} {s s' : σ} (h : Inv s) (hrun : S.runFrom s as = some s')
    (hC : ∀ m ∈ S.movesFrom s as, C m.src m.act) :
    T.runFrom (f s) as = some (f s') ∧
      T.movesFrom (f s) as = (S.movesFrom s as).map (Move.map f) ∧ Inv s' := by
  induction as generalizing s with
  | nil =>
    obtain rfl := Option.some.inj hrun
    exact ⟨rfl, rfl, h⟩
  | cons a as ih =>
    obtain ⟨u, hu, hrest⟩ := Option.bind_eq_some_iff.mp hrun
    rw [S.movesFrom_cons_of_step hu, List.forall_mem_cons] at hC
    obtain ⟨hv, hinv⟩ := hstep s a u h hu hC.1
    obtain ⟨hend, hmoves, hinv⟩ := ih hinv hrest hC.2
    refine ⟨by rw [runFrom_cons, hv]; exact hend, ?_, hinv⟩
    rw [T.movesFrom_cons_of_step hv, S.movesFrom_cons_of_step hu, List.map_cons, hmoves]
    rfl

/-- …where what relates the states is a function, move for move. -/
theorem moves_of_maps (f : σ → τ) (Inv : σ → Prop) (hinit : f S.init = T.init ∧ Inv S.init)
    (hstep : ∀ s a s', Inv s → S.step s a = some s' → C s a →
      T.step (f s) a = some (f s') ∧ Inv s')
    {as : List α} {s : σ} (hrun : S.run as = some s) (hC : ∀ m ∈ S.moves as, C m.src m.act) :
    T.run as = some (f s) ∧ T.moves as = (S.moves as).map (Move.map f) ∧ Inv s := by
  rw [run, moves, ← hinit.1]
  exact movesFrom_of_maps f Inv hstep hinit.2 hrun hC

end Simulation

/-! ## Conditions that are exact for what a run can still do -/

section Exact

/-- A run whose moves meet the condition keeps the property, and after the first move that misses it
there is a way to lose the property. -/
structure ExactFor (P : σ → Prop) (C : σ → α → Prop) (as : List α) : Prop where
  holds : (∀ m ∈ S.moves as, C m.src m.act) → ∀ s ∈ S.visited as, P s
  fails : ∀ s a t, S.run as = some s → (∀ m ∈ S.moves as, C m.src m.act) →
    S.step s a = some t → ¬ C s a → ∃ bs u, S.run (as ++ a :: bs) = some u ∧ ¬ P u

variable {S} {P : σ → Prop} {C : σ → α → Prop}

/-- **The rule for them**: an invariant carries the property along, and from a state with it a move
that misses the condition leads on to a state without the property. -/
theorem exactFor_of_inv (Inv : σ → Prop) (hinit : Inv S.init) (hP : ∀ s, Inv s → P s)
    (hkeep : ∀ s a t, Inv s → S.step s a = some t → C s a → Inv t)
    (hmiss : ∀ s a t, Inv s → S.step s a = some t → ¬ C s a →
      ∃ bs u, S.runFrom t bs = some u ∧ ¬ P u) (as : List α) : S.ExactFor P C as where
  holds hC s hs := hP s (forall_visited_of_moves Inv hinit hkeep hC s hs)
  fails s a t hrun hC hstep hmissed := by
    have hs : Inv s := forall_visited_of_moves Inv hinit hkeep hC s (S.mem_visited_of_run hrun)
    obtain ⟨bs, u, hrest, hu⟩ := hmiss s a t hs hstep hmissed
    refine ⟨bs, u, ?_, hu⟩
    rw [run] at hrun
    rw [run, runFrom_append, hrun, Option.bind_some, runFrom_cons, hstep, Option.bind_some, hrest]

end Exact

/-! ## Runs that come to rest -/

section Rest

/-- **Whatever is done, the property is reached**: as long as it is not there, some action of the
kind is enabled, and each of them leads on to it. -/
inductive Inevitably (own : α → Prop) (P : σ → Prop) : σ → Prop
  | now {s : σ} (h : P s) : Inevitably own P s
  | later {s : σ} (h : ∃ a t, own a ∧ S.step s a = some t)
    (hall : ∀ a t, own a → S.step s a = some t → Inevitably own P t) : Inevitably own P s

variable {S} {own : α → Prop} {P : σ → Prop}

/-- **The rule for it**: an invariant under which every action of the kind uses something up, and
which says that the property is there where no such action is enabled. -/
theorem inevitably_of_cost {β : Type*} [LT β] [WellFoundedLT β] (Inv : σ → Prop) (cost : σ → β)
    (hkeep : ∀ s a t, Inv s → own a → S.step s a = some t → Inv t ∧ cost t < cost s)
    (hrest : ∀ s, Inv s → (∀ a, own a → S.step s a = none) → P s) {s : σ} (hs : Inv s) :
    S.Inevitably own P s := by
  induction hm : cost s using WellFoundedLT.induction generalizing s with
  | ind m ih =>
    subst hm
    by_cases h : ∃ a t, own a ∧ S.step s a = some t
    · refine .later h fun a t ha hstep => ?_
      obtain ⟨ht, hlt⟩ := hkeep s a t hs ha hstep
      exact ih (cost t) hlt ht rfl
    · refine .now (hrest s hs fun a ha => Option.eq_none_iff_forall_ne_some.mpr fun t hstep => ?_)
      exact h ⟨a, t, ha, hstep⟩

/-- **The simulation rule for it**: where the steps of the kind are those of another system, and no
fewer are enabled, what that one comes to is come to. -/
theorem Inevitably.of_maps {τ : Type*} {T : System τ α} {Q : τ → Prop} (f : σ → τ) (Inv : σ → Prop)
    (hstep : ∀ s a t, Inv s → own a → S.step s a = some t → T.step (f s) a = some (f t) ∧ Inv t)
    (henabled : ∀ s a, Inv s → own a → (T.step (f s) a).isSome → (S.step s a).isSome) {s : σ}
    (hs : Inv s) (h : T.Inevitably own Q (f s)) : S.Inevitably own (fun s => Q (f s)) s := by
  generalize hf : f s = u at h
  induction h generalizing s with
  | now h =>
    subst hf
    exact .now h
  | later h _ ih =>
    subst hf
    obtain ⟨a, t, ha, ht⟩ := h
    refine .later ?_ fun b v hb hv => ?_
    · obtain ⟨v, hv⟩ := Option.isSome_iff_exists.mp (henabled s a hs ha (by rw [ht]; rfl))
      exact ⟨a, v, ha, hv⟩
    · obtain ⟨hmapped, hinv⟩ := hstep s b v hs hb hv
      exact ih b (f v) hb hmapped hinv rfl

end Rest

end System

/-- A cost that is a sum over parts changes by what one part does. -/
theorem sum_update_add {ι β : Type*} [DecidableEq ι] {parts : Finset ι} {i : ι} (hi : i ∈ parts)
    (w : β → ℕ) (f : ι → β) (b : β) :
    ∑ j ∈ parts, w (Function.update f i b j) + w (f i) = ∑ j ∈ parts, w (f j) + w b := by
  have hcomp : ∀ j, w (Function.update f i b j) = Function.update (fun j => w (f j)) i (w b) j :=
    fun j => congrFun (Function.comp_update w f i b) j
  rw [Finset.sum_congr rfl fun j _ => hcomp j, Finset.sum_update_of_mem hi,
    Finset.sum_eq_add_sum_sdiff_singleton_of_mem hi fun j => w (f j)]
  omega

end Machinery
