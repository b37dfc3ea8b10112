import YServer.Machinery.Locks
import YServer.Machinery.Runs
import Mathlib.Data.List.Basic

/-!
# Config/Listeners — the ids of the listeners

`addListener` numbers the callbacks of all `ConfigVar<T>` with one static counter, under the lock of
the variable it is called on:

    lock m_mutex ─▸ ++s_fun_id ─▸ m_cbs[s_fun_id] = cb ─▸ return s_fun_id ─▸ unlock

The lock does not keep a call on another variable from counting on in between.  Where that happens
before the insertion nothing is lost, behind it the call returns an id that names no callback of its
variable, or another one's; and apart from a counter that has come round, nothing else can go wrong
(`namesListeners_exactFor`).
-/

namespace YServer

open Machinery

/-! ## Threads, variables and their callbacks -/

/-- Where a thread is: outside both functions, or in one of them with the lock of `var`. -/
inductive ListenerPoint
  | idle
  | locked (var : ℕ)
  | incremented (var : ℕ)
  /-- Its callback, the `call`-th to be registered, has been stored under `key`… -/
  | inserted (var call : ℕ) (key : UInt64)
  /-- …and `id` read to be returned. -/
  | returning (var call : ℕ) (id : UInt64)
  | deleting (var : ℕ) (key : UInt64)
  deriving DecidableEq, Repr

/-- The variable whose lock a thread holds. -/
def ListenerPoint.holds : ListenerPoint → Option ℕ
  | .idle => none
  | .locked var | .incremented var | .inserted var _ _ | .returning var _ _ | .deleting var _ =>
    some var

/-- The variables of one value type; the callbacks are numbered as they are registered, and
`registered` says on which variable and under which key each one was. -/
structure ListenerState where
  sFunId : UInt64
  mutex : ℕ → Option ℕ
  cbs : ℕ → UInt64 → Option ℕ
  threads : ℕ → ListenerPoint
  registered : List (ℕ × UInt64)
  erased : List (ℕ × UInt64)

inductive ListenerAction
  /-- A thread calls `addListener` and gets the lock. -/
  | addListener (thread var : ℕ)
  | increment (thread : ℕ)
  | insert (thread : ℕ)
  | read (thread : ℕ)
  | unlock (thread : ℕ)
  /-- A thread calls `delListener` and gets the lock. -/
  | delListener (thread var : ℕ) (key : UInt64)
  /-- It erases what is stored under its key, and leaves. -/
  | erase (thread : ℕ)
  deriving DecidableEq, Repr

namespace ListenerState

variable (s : ListenerState)

/-- `m_cbs` of a variable gets an entry for a key, or loses it. -/
def setCb (var : ℕ) (key : UInt64) (cb : Option ℕ) : ℕ → UInt64 → Option ℕ :=
  Function.update s.cbs var (Function.update (s.cbs var) key cb)

def step : ListenerAction → Option ListenerState
  | .addListener thread var =>
    if s.threads thread = .idle ∧ s.mutex var = none then
      some { s with
        mutex := Function.update s.mutex var (some thread)
        threads := Function.update s.threads thread (.locked var) }
    else none
  | .increment thread =>
    match s.threads thread with
    | .locked var =>
      some { s with
        sFunId := s.sFunId + 1
        threads := Function.update s.threads thread (.incremented var) }
    | _ => none
  | .insert thread =>
    match s.threads thread with
    | .incremented var =>
      some { s with
        cbs := s.setCb var s.sFunId (some s.registered.length)
        registered := s.registered ++ [(var, s.sFunId)]
        threads :=
          Function.update s.threads thread (.inserted var s.registered.length s.sFunId) }
    | _ => none
  | .read thread =>
    match s.threads thread with
    | .inserted var call _ =>
      some { s with threads := Function.update s.threads thread (.returning var call s.sFunId) }
    | _ => none
  | .unlock thread =>
    match s.threads thread with
    | .returning var _ _ =>
      some { s with
        mutex := Function.update s.mutex var none
        threads := Function.update s.threads thread .idle }
    | _ => none
  | .delListener thread var key =>
    if s.threads thread = .idle ∧ s.mutex var = none then
      some { s with
        mutex := Function.update s.mutex var (some thread)
        threads := Function.update s.threads thread (.deleting var key) }
    else none
  | .erase thread =>
    match s.threads thread with
    | .deleting var key =>
      some { s with
        mutex := Function.update s.mutex var none
        cbs := s.setCb var key none
        erased := s.erased ++ [(var, key)]
        threads := Function.update s.threads thread .idle }
    | _ => none

/-- **Ids name their listeners.** -/
structure NamesListeners : Prop where
  /-- The id a call returns is the key of its own callback. -/
  own : ∀ thread var call id, s.threads thread = .returning var call id → s.cbs var id = some call
  /-- A callback stays where it was stored until its key is deleted… -/
  kept : ∀ var key call, s.registered[call]? = some (var, key) → (var, key) ∉ s.erased →
    s.cbs var key = some call
  /-- …and then it is what is removed, or nothing is. -/
  removes : ∀ var key call call', s.registered[call]? = some (var, key) →
    s.cbs var key = some call' → call' = call

end ListenerState

/-- The condition on one step: nobody counts on while a call is between its insertion and its read,
and no key is used for a second callback of its variable. -/
def Undisturbing (s : ListenerState) : ListenerAction → Prop
  | .increment _ => ∀ thread var call key, s.threads thread ≠ .inserted var call key
  | .insert thread => ∀ var, s.threads thread = .incremented var → (var, s.sFunId) ∉ s.registered
  | _ => True

/-- Any number of threads and of variables without listeners. -/
def listenerSystem : System ListenerState ListenerAction where
  init := ⟨0, fun _ => none, fun _ _ => none, fun _ => .idle, [], []⟩
  step := ListenerState.step

/-! ## The invariant -/

namespace ListenerState

variable {s t : ListenerState} {thread var : ℕ} {key : UInt64}

/-- **What is stored is what has been registered**, and each call is where it should be. -/
structure Sound (s : ListenerState) : Prop where
  locked : Guards s.mutex ListenerPoint.holds s.threads
  stored : ∀ var key call, s.cbs var key = some call → s.registered[call]? = some (var, key)
  present : ∀ var key call, s.registered[call]? = some (var, key) →
    s.cbs var key = some call ∨ s.cbs var key = none ∧ (var, key) ∈ s.erased
  inserted : ∀ thread var call key, s.threads thread = .inserted var call key →
    s.cbs var key = some call ∧ key = s.sFunId
  returning : ∀ thread var call id, s.threads thread = .returning var call id →
    s.cbs var id = some call

theorem Sound.namesListeners (h : s.Sound) : s.NamesListeners where
  own := h.returning
  kept var key call hreg hnot := (h.present var key call hreg).resolve_right fun h' => hnot h'.2
  removes var key call call' hreg hcb := by
    rcases h.present var key call hreg with hcb' | ⟨hnone, -⟩
    · exact Option.some.inj (hcb.symm.trans hcb')
    · cases hcb.symm.trans hnone

theorem setCb_apply (cb : Option ℕ) (var' : ℕ) (key' : UInt64) :
    s.setCb var key cb var' key' = if (var', key') = (var, key) then cb else s.cbs var' key' := by
  rw [setCb, Function.update_apply]
  by_cases hvar : var' = var
  · subst hvar
    simp [Function.update_apply]
  · simp [hvar]

theorem setCb_of_ne (cb : Option ℕ) {var' : ℕ} (hvar : var' ≠ var) (key' : UInt64) :
    s.setCb var key cb var' key' = s.cbs var' key' := by
  rw [setCb, Function.update_of_ne hvar]

theorem registered_concat_eq_some_iff {call : ℕ} {entry entry' : ℕ × UInt64} :
    (s.registered ++ [entry])[call]? = some entry'
      ↔ s.registered[call]? = some entry' ∨ call = s.registered.length ∧ entry' = entry := by
  rw [List.getElem?_append]
  by_cases hlt : call < s.registered.length
  · rw [if_pos hlt]
    simp [Nat.ne_of_lt hlt]
  · rw [if_neg hlt, List.getElem?_eq_none (Nat.not_lt.mp hlt), List.getElem?_singleton]
    by_cases heq : call = s.registered.length
    · simp [heq, eq_comm]
    · have hpos : call - s.registered.length ≠ 0 := by omega
      simp [heq, hpos]

/-! ## The seven steps -/

/-- A thread enters one of the functions. -/
theorem Sound.enter (h : s.Sound) (hfree : s.mutex var = none) {point : ListenerPoint}
    (hholds : point.holds = some var) (hinserted : ∀ var call key, point ≠ .inserted var call key)
    (hreturning : ∀ var call id, point ≠ .returning var call id) : Sound { s with
      mutex := Function.update s.mutex var (some thread)
      threads := Function.update s.threads thread point } where
  locked := h.locked.acquire hfree hholds
  stored := h.stored
  present := h.present
  inserted other var call key hother :=
    h.inserted other var call key (of_update_eq hother (hinserted var call key)).2
  returning other var call id hother :=
    h.returning other var call id (of_update_eq hother (hreturning var call id)).2

/-- The counter moves on where no call has yet to read it. -/
theorem Sound.increment (h : s.Sound) (hthread : s.threads thread = .locked var)
    (hnobody : ∀ thread var call key, s.threads thread ≠ .inserted var call key) : Sound { s with
      sFunId := s.sFunId + 1
      threads := Function.update s.threads thread (.incremented var) } where
  locked := h.locked.move (by rw [hthread]; rfl)
  stored := h.stored
  present := h.present
  inserted other var call key hother :=
    absurd (of_update_eq hother nofun).2 (hnobody other var call key)
  returning other var call id hother :=
    h.returning other var call id (of_update_eq hother nofun).2

/-- A callback is stored under a new key. -/
theorem Sound.insert (h : s.Sound) (hthread : s.threads thread = .incremented var)
    (hnew : (var, s.sFunId) ∉ s.registered) : Sound { s with
      cbs := s.setCb var s.sFunId (some s.registered.length)
      registered := s.registered ++ [(var, s.sFunId)]
      threads :=
        Function.update s.threads thread (.inserted var s.registered.length s.sFunId) } := by
  have hholds : (s.threads thread).holds = some var := by rw [hthread]; rfl
  refine ⟨h.locked.move hholds, fun var' key' call' hcb => ?_,
    fun var' key' call' hreg => ?_, fun other var' call' key' hother => ?_,
    fun other var' call' id hother => ?_⟩
  · refine registered_concat_eq_some_iff.mpr ?_
    dsimp only at hcb
    rw [setCb_apply] at hcb
    split at hcb
    case isTrue heq => exact Or.inr ⟨(Option.some.inj hcb).symm, heq⟩
    case isFalse => exact Or.inl (h.stored var' key' call' hcb)
  · dsimp only
    rw [setCb_apply]
    rcases registered_concat_eq_some_iff.mp hreg with hreg | ⟨rfl, heq⟩
    · have hne : (var', key') ≠ (var, s.sFunId) := fun heq =>
        hnew (heq ▸ List.mem_of_getElem? hreg)
      rw [if_neg hne]
      exact h.present var' key' call' hreg
    · exact Or.inl (if_pos heq)
  · dsimp only at hother ⊢
    rcases eq_or_ne other thread with rfl | hne
    · rw [Function.update_self] at hother
      obtain ⟨rfl, rfl, rfl⟩ := ListenerPoint.inserted.inj hother
      exact ⟨(setCb_apply ..).trans (if_pos rfl), rfl⟩
    · rw [Function.update_of_ne hne] at hother
      rw [setCb_of_ne _ (h.locked.ne_of_ne hne (by rw [hother]; rfl) hholds)]
      exact h.inserted other var' call' key' hother
  · obtain ⟨hne, hother⟩ := of_update_eq hother nofun
    have hvar : var' ≠ var := h.locked.ne_of_ne hne (by rw [hother]; rfl) hholds
    exact (setCb_of_ne _ hvar id).trans (h.returning other var' call' id hother)

/-- The counter is read while it is still the key. -/
theorem Sound.read (h : s.Sound) {call : ℕ} (hthread : s.threads thread = .inserted var call key) :
    Sound { s with
      threads := Function.update s.threads thread (.returning var call s.sFunId) } := by
  refine ⟨h.locked.move (by rw [hthread]; rfl), h.stored, h.present,
    fun other var' call' key' hother => ?_, fun other var' call' id hother => ?_⟩
  · exact h.inserted other var' call' key' (of_update_eq hother nofun).2
  · dsimp only at hother
    rcases eq_or_ne other thread with rfl | hne
    · rw [Function.update_self] at hother
      obtain ⟨rfl, rfl, rfl⟩ := ListenerPoint.returning.inj hother
      obtain ⟨hcb, rfl⟩ := h.inserted other var call key hthread
      exact hcb
    · rw [Function.update_of_ne hne] at hother
      exact h.returning other var' call' id hother

theorem Sound.unlock (h : s.Sound) (hholds : (s.threads thread).holds = some var) : Sound { s with
    mutex := Function.update s.mutex var none
    threads := Function.update s.threads thread .idle } where
  locked := h.locked.release hholds rfl
  stored := h.stored
  present := h.present
  inserted other var call key hother :=
    h.inserted other var call key (of_update_eq hother nofun).2
  returning other var call id hother :=
    h.returning other var call id (of_update_eq hother nofun).2

/-- A callback is removed under its key. -/
theorem Sound.erase (h : s.Sound) (hthread : s.threads thread = .deleting var key) : Sound { s with
    mutex := Function.update s.mutex var none
    cbs := s.setCb var key none
    erased := s.erased ++ [(var, key)]
    threads := Function.update s.threads thread .idle } := by
  have hholds : (s.threads thread).holds = some var := by rw [hthread]; rfl
  refine ⟨h.locked.release hholds rfl, fun var' key' call' hcb => ?_,
    fun var' key' call' hreg => ?_, fun other var' call' key' hother => ?_,
    fun other var' call' id hother => ?_⟩
  · dsimp only at hcb
    rw [setCb_apply] at hcb
    split at hcb
    case isTrue => cases hcb
    case isFalse => exact h.stored var' key' call' hcb
  · dsimp only
    rw [setCb_apply]
    split
    case isTrue heq =>
      exact Or.inr ⟨rfl, List.mem_append_right _ (heq ▸ List.mem_singleton_self _)⟩
    case isFalse =>
      exact (h.present var' key' call' hreg).imp_right fun hcb =>
        ⟨hcb.1, List.mem_append_left _ hcb.2⟩
  · obtain ⟨hne, hother⟩ := of_update_eq hother nofun
    obtain ⟨hcb, hkey⟩ := h.inserted other var' call' key' hother
    have hvar : var' ≠ var := h.locked.ne_of_ne hne (by rw [hother]; rfl) hholds
    exact ⟨(setCb_of_ne _ hvar key').trans hcb, hkey⟩
  · obtain ⟨hne, hother⟩ := of_update_eq hother nofun
    have hvar : var' ≠ var := h.locked.ne_of_ne hne (by rw [hother]; rfl) hholds
    exact (setCb_of_ne _ hvar id).trans (h.returning other var' call' id hother)

theorem sound_init : listenerSystem.init.Sound where
  locked _ _ h := nomatch h
  stored _ _ _ h := nomatch h
  present _ _ _ h := nomatch h
  inserted _ _ _ _ h := nomatch h
  returning _ _ _ _ h := nomatch h

/-- Every step that meets the condition keeps the invariant. -/
theorem sound_of_step {action : ListenerAction} (h : s.Sound) (hstep : s.step action = some t)
    (hcond : Undisturbing s action) : t.Sound := by
  cases action with
  | addListener thread var =>
    obtain ⟨⟨-, hfree⟩, hsome⟩ := Option.ite_none_right_eq_some.mp hstep
    obtain rfl := Option.some.inj hsome
    exact h.enter hfree rfl nofun nofun
  | increment thread =>
    simp only [step] at hstep
    split at hstep
    case h_1 var hthread =>
      obtain rfl := Option.some.inj hstep
      exact h.increment hthread hcond
    case h_2 => cases hstep
  | insert thread =>
    simp only [step] at hstep
    split at hstep
    case h_1 var hthread =>
      obtain rfl := Option.some.inj hstep
      exact h.insert hthread (hcond var hthread)
    case h_2 => cases hstep
  | read thread =>
    simp only [step] at hstep
    split at hstep
    case h_1 var call key hthread =>
      obtain rfl := Option.some.inj hstep
      exact h.read hthread
    case h_2 => cases hstep
  | unlock thread =>
    simp only [step] at hstep
    split at hstep
    case h_1 var call id hthread =>
      obtain rfl := Option.some.inj hstep
      exact h.unlock (by rw [hthread]; rfl)
    case h_2 => cases hstep
  | delListener thread var key =>
    obtain ⟨⟨-, hfree⟩, hsome⟩ := Option.ite_none_right_eq_some.mp hstep
    obtain rfl := Option.some.inj hsome
    exact h.enter hfree rfl nofun nofun
  | erase thread =>
    simp only [step] at hstep
    split at hstep
    case h_1 var key hthread =>
      obtain rfl := Option.some.inj hstep
      exact h.erase hthread
    case h_2 => cases hstep

/-- **A call whose key is no longer the counter returns an id that is not its own.** -/
theorem not_namesListeners_of_increment (h : s.Sound) {other var' call : ℕ}
    (hother : s.threads other = .inserted var' call key) (threads : ℕ → ListenerPoint) :
    ¬ NamesListeners { s with
      sFunId := s.sFunId + 1
      threads := Function.update threads other (.returning var' call (s.sFunId + 1)) } := by
  intro hnames
  obtain ⟨hcb, rfl⟩ := h.inserted other var' call key hother
  have hcb' := hnames.own other var' call (s.sFunId + 1) (Function.update_self ..)
  have hreg := h.stored var' s.sFunId call hcb
  have hreg' := h.stored var' (s.sFunId + 1) call hcb'
  have hcounter : s.sFunId + 1 = s.sFunId :=
    (Prod.mk.inj (Option.some.inj (hreg'.symm.trans hreg))).2
  exact absurd hcounter (by simp)

/-- **A key that has been used names two callbacks.** -/
theorem not_namesListeners_of_insert (hused : (var, s.sFunId) ∈ s.registered)
    {threads : ℕ → ListenerPoint} : ¬ NamesListeners { s with
      cbs := s.setCb var s.sFunId (some s.registered.length)
      registered := s.registered ++ [(var, s.sFunId)]
      threads := threads } := by
  intro hnames
  obtain ⟨call, hlt, hget⟩ := List.getElem_of_mem hused
  have hreg : (s.registered ++ [(var, s.sFunId)])[call]? = some (var, s.sFunId) :=
    registered_concat_eq_some_iff.mpr (Or.inl (List.getElem?_eq_some_iff.mpr ⟨hlt, hget⟩))
  have heq := hnames.removes var s.sFunId call s.registered.length hreg
    ((setCb_apply ..).trans (if_pos rfl))
  exact Nat.ne_of_lt hlt heq.symm

/-- A step that misses the condition goes wrong at once, or when the call it disturbs returns. -/
theorem fails_of_step {action : ListenerAction} (h : s.Sound) (hstep : s.step action = some t)
    (hmiss : ¬ Undisturbing s action) :
    ∃ actions u, listenerSystem.runFrom t actions = some u ∧ ¬ u.NamesListeners := by
  cases action with
  | addListener | read | unlock | delListener | erase => exact absurd trivial hmiss
  | increment thread =>
    simp only [Undisturbing, not_forall, not_not] at hmiss
    obtain ⟨other, var', call, key, hother⟩ := hmiss
    simp only [step] at hstep
    split at hstep
    case h_2 => cases hstep
    case h_1 var hthread =>
      obtain rfl := Option.some.inj hstep
      have hne : other ≠ thread := fun heq => by
        rw [heq, hthread] at hother
        cases hother
      refine ⟨[.read other], _, ?_, not_namesListeners_of_increment h hother
        (Function.update s.threads thread (.incremented var))⟩
      simp [listenerSystem, step, Function.update_of_ne hne, hother]
  | insert thread =>
    simp only [Undisturbing, not_forall, not_not] at hmiss
    obtain ⟨var, hthread, hused⟩ := hmiss
    simp only [step, hthread, Option.some.injEq] at hstep
    obtain rfl := hstep
    exact ⟨[], _, rfl, not_namesListeners_of_insert hused⟩

end ListenerState

/-- **Ids name their listeners in every run in which nobody counts on between a call's insertion and
its read and no key is used twice**; from where a run first departs from that it can go wrong. -/
theorem namesListeners_exactFor (actions : List ListenerAction) :
    listenerSystem.ExactFor ListenerState.NamesListeners Undisturbing actions :=
  System.exactFor_of_inv ListenerState.Sound ListenerState.sound_init
    (fun _ => ListenerState.Sound.namesListeners) (fun _ _ _ => ListenerState.sound_of_step)
    (fun _ _ _ => ListenerState.fails_of_step) actions

/-- Two threads add a listener each, to two variables. -/
def addTwo : List ListenerAction :=
  [.addListener 0 0, .increment 0, .insert 0, .addListener 1 1, .increment 1, .read 0]

/-- The first one's is stored under 1, and it returns 2. -/
theorem not_namesListeners_addTwo :
    ¬ ∀ s ∈ listenerSystem.visited addTwo, s.NamesListeners := by
  intro h
  obtain ⟨t, ht⟩ : ∃ t, listenerSystem.run addTwo = some t := ⟨_, rfl⟩
  have hown := (h t (listenerSystem.mem_visited_of_run ht)).own 0 0 0 2
  rw [← Option.some.inj ht] at hown
  exact absurd (hown rfl) (by decide)

end YServer
