import YServer.Machinery.Runs
import Mathlib.Data.Finset.Basic

/-!
# Config/ConfigVar — a variable, its listeners and the threads that set it

`setValue` holds the lock twice, shared to compare and notify, exclusive to assign:

    thread 1   compare, notify (a → b) ────────────────────────────── assign b
    thread 2                             compare, notify (a → c) ─ assign c

What a listener hears is the history of the variable as long as nobody notifies while somebody else
has yet to assign.  Once that happens two pairs in a row start at the same old value, and no later
call mends it (`isHistory_iff_noOverlap`).
-/

namespace YServer

open Machinery

/-- `ConfigVar<T>`, with what its listeners have been called with and, for every thread that is in
`setValue` between the two sections, the value it is about to assign. -/
structure ConfigVar (T : Type*) where
  value : T
  cbs : Finset ℕ
  received : ℕ → List (T × T)
  setting : ℕ → Option T

/-- One atomic section, run by a thread. -/
inductive ConfigVarAction (T : Type*)
  /-- The shared section of `setValue`. -/
  | compare (thread : ℕ) (v : T)
  /-- The exclusive section of `setValue`. -/
  | assign (thread : ℕ)
  | getValue (thread : ℕ)
  deriving DecidableEq, Repr

namespace ConfigVar

variable {T : Type*}

/-- `ConfigVar::ConfigVar`, with listeners registered on it. -/
def new (defaultValue : T) (cbs : Finset ℕ) : ConfigVar T where
  value := defaultValue
  cbs := cbs
  received := fun _ => []
  setting := fun _ => none

def getValue (var : ConfigVar T) : T := var.value

/-- The loop over the callbacks. -/
def notify (var : ConfigVar T) (v : T) : ConfigVar T :=
  { var with received := fun l =>
      if l ∈ var.cbs then var.received l ++ [(var.value, v)] else var.received l }

/-- The first section of `setValue`; a value equal to the current one ends the call. -/
def compare [DecidableEq T] (var : ConfigVar T) (thread : ℕ) (v : T) : ConfigVar T :=
  if v = var.value then var
  else { var.notify v with setting := Function.update var.setting thread (some v) }

/-- The second section. -/
def assign (var : ConfigVar T) (thread : ℕ) (v : T) : ConfigVar T :=
  { var with value := v, setting := Function.update var.setting thread none }

/-- No `setValue` is in progress. -/
def Idle (var : ConfigVar T) : Prop := ∀ thread, var.setting thread = none

end ConfigVar

variable {T : Type*}

/-- Any number of threads on one variable; a thread makes one call at a time. -/
def configVarSystem [DecidableEq T] (defaultValue : T) (cbs : Finset ℕ) :
    System (ConfigVar T) (ConfigVarAction T) where
  init := ConfigVar.new defaultValue cbs
  step var
    | .compare thread v =>
      if var.setting thread = none then some (var.compare thread v) else none
    | .assign thread => (var.setting thread).map (var.assign thread)
    | .getValue thread => if var.setting thread = none then some var else none

/-! ## Histories -/

/-- **The pairs are a history** from one value to another: each one starts where the one before it
ended. -/
def IsHistory (first : T) : List (T × T) → T → Prop
  | [], last => first = last
  | (old, new) :: pairs, last => old = first ∧ IsHistory new pairs last

section History

variable {first last : T} {pairs : List (T × T)}

theorem isHistory_append_iff {pairs' : List (T × T)} :
    IsHistory first (pairs ++ pairs') last
      ↔ ∃ middle, IsHistory first pairs middle ∧ IsHistory middle pairs' last := by
  induction pairs generalizing first with
  | nil => simp [IsHistory]
  | cons pair pairs ih =>
    simp only [List.cons_append, IsHistory, ih, and_assoc, exists_and_left]

/-- A history goes on with a pair that starts where it ended. -/
theorem isHistory_concat_iff {old new : T} : IsHistory first (pairs ++ [(old, new)]) last
    ↔ IsHistory first pairs old ∧ new = last := by
  simp [isHistory_append_iff, IsHistory]

/-- A history ends at one value. -/
theorem IsHistory.last_unique {last' : T} (h : IsHistory first pairs last)
    (h' : IsHistory first pairs last') : last = last' := by
  induction pairs generalizing first with
  | nil => exact h.symm.trans h'
  | cons pair pairs ih => exact ih h.2 h'.2

end History

namespace ConfigVar

/-- The condition on one section: nobody notifies while somebody has yet to assign. -/
def NoOverlap (var : ConfigVar T) : ConfigVarAction T → Prop
  | .compare _ v => var.cbs = ∅ ∨ v = var.value ∨ var.Idle
  | .assign _ | .getValue _ => True

variable {defaultValue : T} {cbs : Finset ℕ} {var : ConfigVar T}

/-- **One call at a time**: what the listeners have heard leads to the value, or to the one value
about to be assigned. -/
def Orderly (defaultValue : T) (cbs : Finset ℕ) (var : ConfigVar T) : Prop :=
  var.cbs = cbs ∧ (cbs = ∅ ∨
    (var.Idle ∧ ∀ l ∈ cbs, IsHistory defaultValue (var.received l) var.value) ∨
    ∃ thread v, v ≠ var.value ∧ var.setting = Function.update (fun _ => none) thread (some v) ∧
      ∀ l ∈ cbs, IsHistory defaultValue (var.received l) v)

/-- A listener has heard what is no history, wherever it ends. -/
def Garbled (defaultValue : T) (cbs : Finset ℕ) (var : ConfigVar T) : Prop :=
  var.cbs = cbs ∧ ∃ l ∈ cbs, ∀ last, ¬ IsHistory defaultValue (var.received l) last

theorem orderly_new : Orderly defaultValue cbs (new defaultValue cbs) :=
  ⟨rfl, Or.inr (Or.inl ⟨fun _ => rfl, fun _ _ => rfl⟩)⟩

theorem not_idle_of_setting {thread : ℕ} {v : T}
    (h : var.setting = Function.update (fun _ => none) thread (some v)) : ¬ var.Idle := by
  intro hidle
  have := hidle thread
  rw [h, Function.update_self] at this
  cases this

theorem received_notify {l : ℕ} (hl : l ∈ var.cbs) (v : T) :
    (var.notify v).received l = var.received l ++ [(var.value, v)] := if_pos hl

/-- A call that notifies while nobody has yet to assign goes on with the history. -/
theorem Orderly.compare [DecidableEq T] (h : Orderly defaultValue cbs var) {thread : ℕ} {v : T}
    (hC : var.cbs = ∅ ∨ v = var.value ∨ var.Idle) :
    Orderly defaultValue cbs (var.compare thread v) := by
  obtain ⟨rfl, hall⟩ := h
  rw [ConfigVar.compare]
  split_ifs with hv
  · exact ⟨rfl, hall⟩
  refine ⟨rfl, ?_⟩
  rcases hC with hempty | hvalue | hidle
  · exact Or.inl hempty
  · exact absurd hvalue hv
  rcases hall with hempty | ⟨-, hhistory⟩ | ⟨thread', v', -, hsetting, -⟩
  · exact Or.inl hempty
  · refine Or.inr (Or.inr ⟨thread, v, hv, ?_, fun l hl => ?_⟩)
    · exact congrArg (Function.update · thread (some v)) (funext hidle)
    · change IsHistory defaultValue ((var.notify v).received l) v
      rw [received_notify hl]
      exact isHistory_concat_iff.mpr ⟨hhistory l hl, rfl⟩
  · exact absurd hidle (not_idle_of_setting hsetting)

/-- …and one that notifies before the other has assigned leaves two pairs with one old value. -/
theorem Orderly.garbled_of_compare [DecidableEq T] (h : Orderly defaultValue cbs var)
    {thread : ℕ} {v : T} (hC : ¬ (var.cbs = ∅ ∨ v = var.value ∨ var.Idle)) :
    Garbled defaultValue cbs (var.compare thread v) := by
  obtain ⟨rfl, hall⟩ := h
  obtain ⟨hempty, hv, hidle⟩ := by simpa only [not_or] using hC
  rw [ConfigVar.compare, if_neg hv]
  obtain ⟨l, hl⟩ := Finset.nonempty_iff_ne_empty.mpr hempty
  rcases hall with hempty' | ⟨hidle', -⟩ | ⟨thread', v', hne, -, hhistory⟩
  · exact absurd hempty' hempty
  · exact absurd hidle' hidle
  refine ⟨rfl, l, hl, fun last hlast => ?_⟩
  change IsHistory defaultValue ((var.notify v).received l) last at hlast
  rw [received_notify hl, isHistory_concat_iff] at hlast
  exact hne ((hhistory l hl).last_unique hlast.1)

theorem Orderly.assign (h : Orderly defaultValue cbs var) {thread : ℕ} {v : T}
    (hv : var.setting thread = some v) : Orderly defaultValue cbs (var.assign thread v) := by
  obtain ⟨rfl, hall⟩ := h
  refine ⟨rfl, hall.imp id fun hall => Or.inl ?_⟩
  rcases hall with ⟨hidle, -⟩ | ⟨thread', v', -, hsetting, hhistory⟩
  · rw [hidle thread] at hv
    cases hv
  · -- the thread that assigns is the one that has notified
    rw [hsetting] at hv
    obtain rfl : thread = thread' := by
      by_contra hne
      rw [Function.update_of_ne hne] at hv
      cases hv
    rw [Function.update_self, Option.some_inj] at hv
    subst hv
    refine ⟨fun t => ?_, hhistory⟩
    change Function.update var.setting thread none t = none
    rw [hsetting, Function.update_idem, Function.update_apply]
    exact ite_self _

theorem Garbled.compare [DecidableEq T] (h : Garbled defaultValue cbs var) (thread : ℕ) (v : T) :
    Garbled defaultValue cbs (var.compare thread v) := by
  obtain ⟨rfl, l, hl, hgarbled⟩ := h
  rw [ConfigVar.compare]
  split_ifs with hv
  · exact ⟨rfl, l, hl, hgarbled⟩
  refine ⟨rfl, l, hl, fun last hlast => ?_⟩
  change IsHistory defaultValue ((var.notify v).received l) last at hlast
  rw [received_notify hl, isHistory_concat_iff] at hlast
  exact hgarbled _ hlast.1

/-- What a section does to the variable. -/
theorem step_cases [DecidableEq T] {action : ConfigVarAction T} {var' : ConfigVar T}
    (h : (configVarSystem defaultValue cbs).step var action = some var') :
    (∃ thread v, action = .compare thread v ∧ var' = var.compare thread v) ∨
      (∃ thread v, action = .assign thread ∧ var.setting thread = some v ∧
        var' = var.assign thread v) ∨
      ∃ thread, action = .getValue thread ∧ var' = var := by
  cases action with
  | compare thread v =>
    obtain ⟨-, h⟩ := Option.ite_none_right_eq_some.mp h
    exact Or.inl ⟨thread, v, rfl, (Option.some.inj h).symm⟩
  | assign thread =>
    obtain ⟨v, hv, rfl⟩ := Option.map_eq_some_iff.mp h
    exact Or.inr (Or.inl ⟨thread, v, rfl, hv, rfl⟩)
  | getValue thread =>
    obtain ⟨-, h⟩ := Option.ite_none_right_eq_some.mp h
    exact Or.inr (Or.inr ⟨thread, rfl, (Option.some.inj h).symm⟩)

end ConfigVar

/-- **Every listener has heard the history of the variable, at a moment no `setValue` is in
progress, exactly when no two calls have overlapped** between a notification and its assignment —
whatever the threads call, and in whatever order their sections come. -/
theorem isHistory_iff_noOverlap [DecidableEq T] (defaultValue : T) (cbs : Finset ℕ)
    {actions : List (ConfigVarAction T)} {var : ConfigVar T}
    (hrun : (configVarSystem defaultValue cbs).run actions = some var) (hidle : var.Idle) :
    (∀ l ∈ cbs, IsHistory defaultValue (var.received l) var.getValue)
      ↔ ∀ m ∈ (configVarSystem defaultValue cbs).moves actions, m.src.NoOverlap m.act := by
  have hend := System.inv_or_broken_of_run (C := ConfigVar.NoOverlap)
    (ConfigVar.Orderly defaultValue cbs) (ConfigVar.Garbled defaultValue cbs)
    ConfigVar.orderly_new ?_ ?_ ?_ hrun
  · rcases hend with ⟨⟨-, hall⟩, hC⟩ | ⟨⟨-, l, hl, hgarbled⟩, hC⟩
    · refine iff_of_true (fun l hl => ?_) hC
      rcases hall with rfl | ⟨-, hhistory⟩ | ⟨thread, v, -, hsetting, -⟩
      · exact absurd hl (Finset.notMem_empty l)
      · exact hhistory l hl
      · exact absurd hidle (ConfigVar.not_idle_of_setting hsetting)
    · exact iff_of_false (fun hhistory => hgarbled _ (hhistory l hl)) hC
  · intro s a t hs hstep hC
    rcases ConfigVar.step_cases hstep with ⟨_, _, rfl, rfl⟩ | ⟨_, _, rfl, hv, rfl⟩ | ⟨_, rfl, rfl⟩
    exacts [hs.compare hC, hs.assign hv, hs]
  · intro s a t hs hstep hC
    rcases ConfigVar.step_cases hstep with ⟨_, _, rfl, rfl⟩ | ⟨_, _, rfl, hv, rfl⟩ | ⟨_, rfl, rfl⟩
    exacts [hs.garbled_of_compare hC, absurd trivial hC, absurd trivial hC]
  · intro s a t hs hstep
    rcases ConfigVar.step_cases hstep with ⟨_, _, rfl, rfl⟩ | ⟨_, _, rfl, hv, rfl⟩ | ⟨_, rfl, rfl⟩
    exacts [hs.compare _ _, hs, hs]

/-- One thread sets the variable to 1. -/
def setOnce : ConfigVar ℕ := ((ConfigVar.new 0 {7}).compare 0 1).assign 0 1

theorem isHistory_setOnce :
    (∀ l ∈ ({7} : Finset ℕ), IsHistory 0 (setOnce.received l) setOnce.getValue)
      ↔ ∀ m ∈ (configVarSystem 0 {7}).moves [.compare 0 1, .assign 0], m.src.NoOverlap m.act := by
  refine isHistory_iff_noOverlap 0 {7} rfl fun thread => ?_
  cases thread <;> rfl

/-- Two threads compare, then both assign. -/
def setTwice : ConfigVar ℕ :=
  ((((ConfigVar.new 0 {7}).compare 0 1).compare 1 2).assign 0 1).assign 1 2

/-- The listener has heard of two changes from 0. -/
theorem not_isHistory_setTwice :
    (configVarSystem 0 {7}).run [.compare 0 1, .compare 1 2, .assign 0, .assign 1] = some setTwice ∧
      setTwice.Idle ∧
      ¬ ∀ l ∈ ({7} : Finset ℕ), IsHistory 0 (setTwice.received l) setTwice.getValue := by
  refine ⟨rfl, fun thread => ?_, fun h => ?_⟩
  · rcases thread with _ | _ | thread <;> rfl
  · exact absurd (h 7 (by decide)).2.1 (by decide)

end YServer
