import YServer.Config.ConfigVar
import YServer.BaseNet.Basic
import Mathlib.Data.Finset.Sort

/-!
# Config/FromString — a listener that throws

`setValue` tells the listeners one after the other and only then assigns; an exception of any of
them leaves it there and then, and `fromString` returns false:

    l₁ ── l₂ ── l₃ throws ─ ─ l₄ ─ ─ value = v
    told  told  told

Nobody takes back what l₁, l₂ and l₃ have been told.  So a call that returns false has changed
nothing exactly if it did not get as far as a listener (`fromString_iff`).
-/

namespace YServer

namespace ConfigVar

variable {T : Type*}

/-! ## Config.h -/

/-- One call of a listener. -/
def call (var : ConfigVar T) (v : T) (l : ℕ) : ConfigVar T :=
  { var with received := Function.update var.received l (var.received l ++ [(var.value, v)]) }

/-- The loop over the callbacks, and whether it got to its end: an exception leaves it. -/
def callAll (throws : ℕ → T → T → Bool) (v : T) : List ℕ → ConfigVar T → Bool × ConfigVar T
  | [], var => (true, var)
  | l :: ls, var =>
    if throws l var.value v then (false, var.call v l) else callAll throws v ls (var.call v l)

/-- `ConfigVar::setValue` on one thread, and whether it returned; `throws` says which listeners
throw when they are called with an old and a new value. -/
def setValue [BEq T] (throws : ℕ → T → T → Bool) (var : ConfigVar T) (v : T) :
    Bool × ConfigVar T :=
  if v == var.value then (true, var)
  else
    match callAll throws v (var.cbs.sort (· ≤ ·)) var with
    | (false, var) => (false, var)
    | (true, var) => (true, { var with value := v })

/-- `ConfigVar::fromString`, with the conversion `FromStr`. -/
def fromString [BEq T] (fromStr : Bytes → Option T) (throws : ℕ → T → T → Bool)
    (var : ConfigVar T) (val : Bytes) : Bool × ConfigVar T :=
  match fromStr val with
  | none => (false, var)
  | some v => setValue throws var v

/-! ## All or nothing -/

/-- **What `fromString` may leave behind**: the variable and its listeners as they were if it
returns false; if it returns true the value that was read, and one call for each listener if that
is a new one. -/
def AllOrNothing [BEq T] (fromStr : Bytes → Option T) (var : ConfigVar T) (val : Bytes) :
    Bool × ConfigVar T → Prop
  | (false, var') => var'.value = var.value ∧ ∀ l, var'.received l = var.received l
  | (true, var') => ∃ v, fromStr val = some v ∧ (v == var'.value ∨ var'.value = v) ∧
      ∀ l, var'.received l
        = var.received l ++ if l ∈ var.cbs ∧ ¬ v == var.value then [(var.value, v)] else []

/-- No listener is in the way of the value that is read. -/
def Unopposed [BEq T] (fromStr : Bytes → Option T) (throws : ℕ → T → T → Bool) (var : ConfigVar T)
    (val : Bytes) : Prop :=
  ∀ v, fromStr val = some v → v == var.value ∨ ∀ l ∈ var.cbs, ¬ throws l var.value v

/-! ## How far the loop gets -/

/-- The listeners up to the first that throws. -/
def called (throws : ℕ → Bool) : List ℕ → List ℕ
  | [] => []
  | l :: ls => l :: if throws l then [] else called throws ls

theorem called_sublist (throws : ℕ → Bool) (ls : List ℕ) : (called throws ls).Sublist ls := by
  induction ls with
  | nil => exact List.Sublist.slnil
  | cons l ls ih =>
    rw [called]
    split_ifs
    · exact (List.nil_sublist ls).cons_cons l
    · exact ih.cons_cons l

theorem called_eq_self {throws : ℕ → Bool} {ls : List ℕ} (h : ∀ l ∈ ls, ¬ throws l) :
    called throws ls = ls := by
  induction ls with
  | nil => rfl
  | cons l ls ih =>
    obtain ⟨hl, hls⟩ := List.forall_mem_cons.mp h
    rw [called, if_neg hl, ih hls]

/-- There is one as soon as anybody is registered. -/
theorem exists_mem_called {ls : List ℕ} (h : ls ≠ []) (throws : ℕ → Bool) :
    ∃ l, l ∈ called throws ls := by
  obtain ⟨l, ls, rfl⟩ := List.exists_cons_of_ne_nil h
  exact ⟨l, List.mem_cons_self⟩

section Call

variable {throws : ℕ → T → T → Bool} {var : ConfigVar T} {v : T}

/-- The variable after calls of some of its listeners. -/
def told (var : ConfigVar T) (v : T) (ls : List ℕ) : ConfigVar T :=
  { var with received := fun l => var.received l ++ if l ∈ ls then [(var.value, v)] else [] }

theorem told_nil : var.told v [] = var := by
  simp [told]

theorem told_call {l : ℕ} {ls : List ℕ} (h : l ∉ ls) : (var.call v l).told v ls
    = var.told v (l :: ls) := by
  refine congrArg (fun received => { var with received := received }) (funext fun m => ?_)
  change Function.update var.received l _ m ++ _ = _
  by_cases hm : m = l
  · subst hm
    rw [Function.update_self, if_neg h, if_pos List.mem_cons_self, List.append_nil]
  · rw [Function.update_of_ne hm]
    simp only [call, List.mem_cons, hm, false_or]

/-- **The loop calls the listeners up to the first that throws, and gets to its end if none
does** — by induction on the listeners. -/
theorem callAll_eq {ls : List ℕ} (hnodup : ls.Nodup) : callAll throws v ls var
    = (decide (∀ l ∈ ls, ¬ throws l var.value v),
        var.told v (called (throws · var.value v) ls)) := by
  induction ls generalizing var with
  | nil => exact congrArg (true, ·) told_nil.symm
  | cons l ls ih =>
    obtain ⟨hl, hls⟩ := List.nodup_cons.mp hnodup
    rw [callAll, called]
    by_cases hthrows : throws l var.value v
    · rw [if_pos hthrows, if_pos hthrows, decide_eq_false fun h => h l List.mem_cons_self hthrows,
        ← told_call List.not_mem_nil, told_nil]
    · rw [if_neg hthrows, if_neg hthrows, ih hls,
        ← told_call fun hmem => hl ((called_sublist _ ls).subset hmem)]
      refine Prod.ext (decide_eq_decide.mpr ?_) rfl
      exact ⟨fun h => List.forall_mem_cons.mpr ⟨hthrows, h⟩,
        fun h => (List.forall_mem_cons.mp h).2⟩

variable [BEq T]

/-- A call with a new value tells all listeners and assigns if no listener throws… -/
theorem setValue_of_forall_not (hv : ¬ v == var.value)
    (h : ∀ l ∈ var.cbs, ¬ throws l var.value v) : setValue throws var v
      = (true, { var.told v (var.cbs.sort (· ≤ ·)) with value := v }) := by
  have hsort : ∀ l ∈ var.cbs.sort (· ≤ ·), ¬ throws l var.value v := fun l hl =>
    h l ((Finset.mem_sort _).mp hl)
  rw [setValue, if_neg hv, callAll_eq (Finset.sort_nodup _ _), decide_eq_true hsort,
    called_eq_self hsort]

/-- …and otherwise tells those up to the first that does and leaves the value as it was. -/
theorem setValue_of_exists (hv : ¬ v == var.value)
    (h : ∃ l ∈ var.cbs, throws l var.value v) : setValue throws var v
      = (false, var.told v (called (throws · var.value v) (var.cbs.sort (· ≤ ·)))) := by
  have hsort : ¬ ∀ l ∈ var.cbs.sort (· ≤ ·), ¬ throws l var.value v := by
    obtain ⟨l, hl, hthrows⟩ := h
    exact fun hall => hall l ((Finset.mem_sort _).mpr hl) hthrows
  rw [setValue, if_neg hv, callAll_eq (Finset.sort_nodup _ _), decide_eq_false hsort]

end Call

/-! ## The two sections -/

/-- Where no listener throws, `setValue` is its shared section and then its exclusive one. -/
theorem setValue_eq_assign [DecidableEq T] {throws : ℕ → T → T → Bool} {var : ConfigVar T}
    {thread : ℕ} {v : T} (hthread : var.setting thread = none) (hv : v ≠ var.value)
    (h : ∀ l ∈ var.cbs, ¬ throws l var.value v) :
    setValue throws var v = (true, (var.compare thread v).assign thread v) := by
  rw [setValue_of_forall_not (by simpa using hv) h, compare, if_neg hv]
  refine congrArg (true, ·) ?_
  simp only [assign, notify, told, Function.update_idem, Finset.mem_sort, mk.injEq, true_and]
  refine ⟨funext fun l => ?_, ?_⟩
  · split_ifs
    · rfl
    · exact List.append_nil _
  · rw [← hthread, Function.update_eq_self]

/-! ## When it is all or nothing -/

section AllOrNothing

variable [BEq T] {fromStr : Bytes → Option T} {throws : ℕ → T → T → Bool} {var : ConfigVar T}
  {val : Bytes} {v : T}

theorem fromString_eq (hval : fromStr val = some v) :
    var.fromString fromStr throws val = setValue throws var v := by
  rw [fromString, hval]

theorem allOrNothing_of_forall_not (hval : fromStr val = some v) (hv : ¬ v == var.value)
    (h : ∀ l ∈ var.cbs, ¬ throws l var.value v) :
    var.AllOrNothing fromStr val (var.fromString fromStr throws val) := by
  rw [fromString_eq hval, setValue_of_forall_not hv h]
  refine ⟨v, hval, Or.inr rfl, fun l => ?_⟩
  simp only [told, Finset.mem_sort, and_iff_left hv]

/-- The first listener has heard of a value that is not assigned. -/
theorem not_allOrNothing_of_exists (hval : fromStr val = some v) (hv : ¬ v == var.value)
    (h : ∃ l ∈ var.cbs, throws l var.value v) :
    ¬ var.AllOrNothing fromStr val (var.fromString fromStr throws val) := by
  rw [fromString_eq hval, setValue_of_exists hv h]
  rintro ⟨-, hreceived⟩
  obtain ⟨l, hl, -⟩ := h
  have hsort : l ∈ var.cbs.sort (· ≤ ·) := (Finset.mem_sort _).mpr hl
  obtain ⟨m, hm⟩ := exists_mem_called (List.ne_nil_of_mem hsort) (throws · var.value v)
  have hnew := List.append_right_eq_self.mp (hreceived m)
  rw [if_pos hm] at hnew
  exact absurd hnew (List.cons_ne_nil _ _)

end AllOrNothing

end ConfigVar

/-- **A call of `fromString` is all or nothing exactly when its text does not convert, or converts
to the current value, or to a value on which no listener throws.** -/
theorem fromString_iff {T : Type*} [BEq T] (fromStr : Bytes → Option T)
    (throws : ℕ → T → T → Bool) (var : ConfigVar T) (val : Bytes) :
    var.AllOrNothing fromStr val (var.fromString fromStr throws val)
      ↔ var.Unopposed fromStr throws val := by
  rw [ConfigVar.Unopposed]
  cases hval : fromStr val with
  | none =>
    rw [ConfigVar.fromString, hval]
    exact iff_of_true ⟨rfl, fun _ => rfl⟩ nofun
  | some v =>
    simp only [Option.some.injEq, forall_eq']
    by_cases hv : v == var.value
    · rw [ConfigVar.fromString_eq hval, ConfigVar.setValue, if_pos hv]
      refine iff_of_true ⟨v, hval, Or.inl hv, fun l => ?_⟩ (Or.inl hv)
      rw [if_neg fun h => h.2 hv, List.append_nil]
    by_cases hthrows : ∀ l ∈ var.cbs, ¬ throws l var.value v
    · exact iff_of_true (ConfigVar.allOrNothing_of_forall_not hval hv hthrows) (Or.inr hthrows)
    · have hex : ∃ l ∈ var.cbs, throws l var.value v := by simpa using hthrows
      exact iff_of_false (ConfigVar.not_allOrNothing_of_exists hval hv hex)
        fun h => hthrows (h.resolve_left hv)

/-- A variable with value 0 and two listeners; the second throws. -/
theorem not_allOrNothing_secondThrows :
    ¬ (ConfigVar.new 0 {1, 2}).AllOrNothing (fun _ => some 1) []
      ((ConfigVar.new 0 {1, 2}).fromString (fun _ => some 1) (fun l _ _ => l == 2) []) :=
  ConfigVar.not_allOrNothing_of_exists rfl (by decide) ⟨2, by decide, rfl⟩

end YServer
