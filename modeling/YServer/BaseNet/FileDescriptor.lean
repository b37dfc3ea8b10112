import YServer.BaseNet.Basic
import YServer.Machinery.Runs
import Mathlib.Logic.Function.Basic
import Mathlib.Logic.Equiv.Basic

/-!
# BaseNet/FileDescriptor — who closes a descriptor

A `file_descriptor` closes the descriptor it holds when it is destroyed, and a move leaves its
source with none, so what one object has taken in should end in one object or in one `close`
(`FdState.OwnedOnce`):

    fresh ──ctor──▸ x ──move ctor──▸ y ──move assignment──▸ z ──dtor──▸ closed

Move assignment overwrites what its target holds without closing it.  Over a run that is the only
leak there is (`forall_ownedOnce_iff`).
-/

namespace YServer

open Machinery

/-! ## The process's descriptors -/

/-- The descriptors of a process, numbered as they were opened: which one a number stands for, how
often each has been closed, and how many calls of `close` have failed. -/
structure FdTable where
  table : ℤ → Option ℕ
  opened : ℕ
  closes : ℕ → ℕ
  failedCloses : ℕ
  negative : ∀ fd < 0, table fd = none
  lt_opened : ∀ fd d, table fd = some d → d < opened
  injective : ∀ fd fd' d, table fd = some d → table fd' = some d → fd = fd'
  closes_of_open : ∀ fd d, table fd = some d → closes d = 0
  closes_of_closed : ∀ d < opened, (∀ fd, table fd ≠ some d) → closes d = 1
  closes_of_fresh : ∀ d, opened ≤ d → closes d = 0

namespace FdTable

/-- A process that has opened nothing. -/
def empty : FdTable where
  table _ := none
  opened := 0
  closes _ := 0
  failedCloses := 0
  negative _ _ := rfl
  lt_opened _ _ h := nomatch h
  injective _ _ _ h := nomatch h
  closes_of_open _ _ h := nomatch h
  closes_of_closed _ h := absurd h (Nat.not_lt_zero _)
  closes_of_fresh _ _ := rfl

variable (k : FdTable) {fd fd' : ℤ} {d d' : ℕ}

theorem update_open_eq_some_iff (hfree : k.table fd = none) :
    Function.update k.table fd (some k.opened) fd' = some d
      ↔ (fd' = fd ∧ d = k.opened) ∨ k.table fd' = some d := by
  by_cases hfd : fd' = fd
  · subst hfd
    rw [Function.update_self, hfree]
    simp [eq_comm]
  · rw [Function.update_of_ne hfd]
    simp [hfd]

/-- The kernel opens one more descriptor, under a number that is free. -/
def openAt (fd : ℤ) (hfd : 0 ≤ fd) (hfree : k.table fd = none) : FdTable where
  table := Function.update k.table fd (some k.opened)
  opened := k.opened + 1
  closes := k.closes
  failedCloses := k.failedCloses
  negative fd' h := by
    rw [Function.update_of_ne (by omega)]
    exact k.negative fd' h
  lt_opened fd' d h := by
    rcases (k.update_open_eq_some_iff hfree).mp h with ⟨-, rfl⟩ | h
    · exact Nat.lt_succ_self _
    · exact Nat.lt_succ_of_lt (k.lt_opened fd' d h)
  injective fd₁ fd₂ d h₁ h₂ := by
    rcases (k.update_open_eq_some_iff hfree).mp h₁ with ⟨hfd, hd⟩ | hold
    · rcases (k.update_open_eq_some_iff hfree).mp h₂ with ⟨hfd', -⟩ | hold'
      · exact hfd.trans hfd'.symm
      · exact absurd (k.lt_opened fd₂ d hold') (by omega)
    · rcases (k.update_open_eq_some_iff hfree).mp h₂ with ⟨-, hd⟩ | hold'
      · exact absurd (k.lt_opened fd₁ d hold) (by omega)
      · exact k.injective fd₁ fd₂ d hold hold'
  closes_of_open fd' d h := by
    rcases (k.update_open_eq_some_iff hfree).mp h with ⟨-, rfl⟩ | h
    · exact k.closes_of_fresh _ (Nat.le_refl _)
    · exact k.closes_of_open fd' d h
  closes_of_closed d hd h := by
    have hne : d ≠ k.opened := fun heq =>
      h fd ((k.update_open_eq_some_iff hfree).mpr (Or.inl ⟨rfl, heq⟩))
    refine k.closes_of_closed d (by omega) fun fd' h' => h fd' ?_
    exact (k.update_open_eq_some_iff hfree).mpr (Or.inr h')
  closes_of_fresh d hd := k.closes_of_fresh d (by omega)

@[simp] theorem table_openAt (hfd : 0 ≤ fd) (hfree : k.table fd = none) :
    (k.openAt fd hfd hfree).table fd = some k.opened := Function.update_self ..

theorem update_none_eq_some_iff :
    Function.update k.table fd none fd' = some d ↔ fd' ≠ fd ∧ k.table fd' = some d := by
  by_cases hfd : fd' = fd
  · subst hfd
    simp
  · rw [Function.update_of_ne hfd]
    simp [hfd]

/-- A descriptor leaves the table. -/
def remove (fd : ℤ) (d : ℕ) (hopen : k.table fd = some d) : FdTable where
  table := Function.update k.table fd none
  opened := k.opened
  closes := Function.update k.closes d (k.closes d + 1)
  failedCloses := k.failedCloses
  negative fd' h := by
    by_cases hfd : fd' = fd
    · rw [hfd, Function.update_self]
    · rw [Function.update_of_ne hfd]
      exact k.negative fd' h
  lt_opened fd' d' h := k.lt_opened fd' d' (k.update_none_eq_some_iff.mp h).2
  injective fd₁ fd₂ d' h₁ h₂ :=
    k.injective fd₁ fd₂ d' (k.update_none_eq_some_iff.mp h₁).2 (k.update_none_eq_some_iff.mp h₂).2
  closes_of_open fd' d' h := by
    obtain ⟨hne, h⟩ := k.update_none_eq_some_iff.mp h
    have hd : d' ≠ d := fun heq => hne (k.injective fd' fd d (heq ▸ h) hopen)
    rw [Function.update_of_ne hd]
    exact k.closes_of_open fd' d' h
  closes_of_closed d' hd' h := by
    by_cases hd : d' = d
    · rw [hd, Function.update_self, k.closes_of_open fd d hopen]
    · rw [Function.update_of_ne hd]
      refine k.closes_of_closed d' hd' fun fd' h' => ?_
      by_cases hfd : fd' = fd
      · exact hd (Option.some.inj (h'.symm.trans (hfd ▸ hopen)))
      · exact h fd' (k.update_none_eq_some_iff.mpr ⟨hfd, h'⟩)
  closes_of_fresh d' hd' := by
    have hd : d' ≠ d := by
      have := k.lt_opened fd d hopen
      omega
    rw [Function.update_of_ne hd]
    exact k.closes_of_fresh d' hd'

/-- `close`; it fails with EBADF if nothing is open under the number. -/
def close (fd : ℤ) : FdTable :=
  match h : k.table fd with
  | some d => k.remove fd d h
  | none => { k with failedCloses := k.failedCloses + 1 }

theorem close_of_open (h : k.table fd = some d) : k.close fd = k.remove fd d h := by
  rw [close]
  split
  case h_1 d' h' =>
    obtain rfl := Option.some.inj (h.symm.trans h')
    rfl
  case h_2 h' => exact absurd (h.symm.trans h') (Option.some_ne_none d)

end FdTable

/-! ## file_descriptor -/

/-- `file_descriptor`. -/
structure FileDescriptor where
  rawFileDescriptor : Option ℤ
  deriving DecidableEq, Repr

namespace FileDescriptor

/-- `file_descriptor()`. -/
def default : FileDescriptor := ⟨none⟩

/-- `file_descriptor(int)`. -/
def ofRaw (rawFileDescriptor : ℤ) : FileDescriptor := ⟨some rawFileDescriptor⟩

/-- `~file_descriptor`. -/
def destroy (object : FileDescriptor) (k : FdTable) : FdTable :=
  match object.rawFileDescriptor with
  | some fd => k.close fd
  | none => k

@[simp] theorem destroy_some (fd : ℤ) (k : FdTable) :
    (⟨some fd⟩ : FileDescriptor).destroy k = k.close fd := rfl

@[simp] theorem destroy_none (k : FdTable) : (⟨none⟩ : FileDescriptor).destroy k = k := rfl

/-- `file_descriptor(file_descriptor&&)`: the new object, and what is left of the other. -/
def moveConstruct (other : FileDescriptor) : FileDescriptor × FileDescriptor :=
  (⟨other.rawFileDescriptor⟩, ⟨none⟩)

/-- `operator=(file_descriptor&&)` between two objects: what they are then. -/
def moveAssign (_this other : FileDescriptor) : FileDescriptor × FileDescriptor :=
  (⟨other.rawFileDescriptor⟩, ⟨none⟩)

end FileDescriptor

/-- A program's `file_descriptor` objects, by their addresses. -/
structure FdState where
  kernel : FdTable
  objects : ℕ → Option FileDescriptor

inductive FdAction
  | construct (object : ℕ)
  /-- …from a descriptor the kernel has just opened under the number `fd`. -/
  | take (object : ℕ) (fd : ℤ)
  | moveConstruct (object other : ℕ)
  | moveAssign (object other : ℕ)
  | destroy (object : ℕ)
  deriving DecidableEq, Repr

namespace FdState

/-- An address with no live object gets one, or a live one a new value. -/
def put (s : FdState) (x : ℕ) (object : FileDescriptor) : FdState :=
  { s with objects := Function.update s.objects x (some object) }

def step (s : FdState) : FdAction → Option FdState
  | .construct x => if s.objects x = none then some (s.put x .default) else none
  | .take x fd =>
    if h : s.objects x = none ∧ 0 ≤ fd ∧ s.kernel.table fd = none then
      some { (s.put x (.ofRaw fd)) with kernel := s.kernel.openAt fd h.2.1 h.2.2 }
    else none
  | .moveConstruct x other =>
    match s.objects x, s.objects other with
    | none, some source =>
      some ((s.put other source.moveConstruct.2).put x source.moveConstruct.1)
    | _, _ => none
  | .moveAssign x other =>
    match s.objects x, s.objects other with
    | some target, some source =>
      if x = other then some s
      else some ((s.put other (target.moveAssign source).2).put x (target.moveAssign source).1)
    | _, _ => none
  | .destroy x =>
    match s.objects x with
    | some object =>
      some ⟨object.destroy s.kernel, Function.update s.objects x none⟩
    | none => none

/-- The live object `x` holds the descriptor number `fd`. -/
def Owns (s : FdState) (x : ℕ) (fd : ℤ) : Prop := s.objects x = some ⟨some fd⟩

instance (s : FdState) (x : ℕ) (fd : ℤ) : Decidable (s.Owns x fd) :=
  inferInstanceAs (Decidable (s.objects x = some ⟨some fd⟩))

/-- **Descriptors are owned once and closed once**: each one opened so far is open and one live
object's, or has been closed once; and nothing else has been closed. -/
def OwnedOnce (s : FdState) : Prop :=
  (∀ d < s.kernel.opened,
    (∃ fd, s.kernel.table fd = some d ∧ (∃! x, s.Owns x fd) ∧ s.kernel.closes d = 0)
      ∨ (∀ fd, s.kernel.table fd ≠ some d) ∧ s.kernel.closes d = 1)
    ∧ s.kernel.failedCloses = 0

end FdState

/-- The condition on one operation: it assigns to itself, or to an object that holds nothing. -/
def AssignsToEmpty (s : FdState) : FdAction → Prop
  | .moveAssign x other => x = other ∨ ∀ fd, ¬ s.Owns x fd
  | _ => True

/-- The objects of a program from its start on. -/
def fdSystem : System FdState FdAction where
  init := ⟨.empty, fun _ => none⟩
  step := FdState.step

/-! ## Ownership -/

namespace FdState

/-- **An open number is one live object's**, and an object's number is open. -/
structure Held (s : FdState) : Prop where
  owner : ∀ fd d, s.kernel.table fd = some d → ∃ x, s.Owns x fd
  isOpen : ∀ x fd, s.Owns x fd → (s.kernel.table fd).isSome
  unique : ∀ x y fd, s.Owns x fd → s.Owns y fd → x = y
  noFailedClose : s.kernel.failedCloses = 0

variable {s t : FdState} {x y other : ℕ} {fd : ℤ}

theorem Held.ownedOnce (h : s.Held) : s.OwnedOnce := by
  refine ⟨fun d hd => ?_, h.noFailedClose⟩
  by_cases hopen : ∃ fd, s.kernel.table fd = some d
  · obtain ⟨fd, hfd⟩ := hopen
    obtain ⟨x, hx⟩ := h.owner fd d hfd
    exact Or.inl ⟨fd, hfd, ⟨x, hx, fun y hy => h.unique y x fd hy hx⟩,
      s.kernel.closes_of_open fd d hfd⟩
  · have hclosed := not_exists.mp hopen
    exact Or.inr ⟨hclosed, s.kernel.closes_of_closed d hd hclosed⟩

theorem owns_put {object : FileDescriptor} : (s.put x object).Owns y fd
    ↔ (y = x ∧ object.rawFileDescriptor = some fd) ∨ (y ≠ x ∧ s.Owns y fd) := by
  rw [Owns, put]
  by_cases hy : y = x
  · subst hy
    obtain ⟨raw⟩ := object
    simp
  · simp [hy, Owns]

/-- Nothing but the addresses of the owners may change. -/
theorem Held.perm (h : s.Held) (hkernel : t.kernel = s.kernel) (σ : Equiv.Perm ℕ)
    (howns : ∀ y fd, t.Owns y fd ↔ s.Owns (σ y) fd) : t.Held where
  owner fd d hfd := by
    obtain ⟨x, hx⟩ := h.owner fd d (hkernel ▸ hfd)
    exact ⟨σ.symm x, (howns _ _).mpr ((σ.apply_symm_apply x).symm ▸ hx)⟩
  isOpen y fd hy := hkernel ▸ h.isOpen (σ y) fd ((howns y fd).mp hy)
  unique y z fd hy hz :=
    σ.injective (h.unique _ _ fd ((howns y fd).mp hy) ((howns z fd).mp hz))
  noFailedClose := hkernel ▸ h.noFailedClose

/-! ## The five operations -/

theorem step_construct (hstep : s.step (.construct x) = some t) :
    s.objects x = none ∧ t = s.put x .default := by
  obtain ⟨hx, hsome⟩ := Option.ite_none_right_eq_some.mp hstep
  exact ⟨hx, (Option.some.inj hsome).symm⟩

theorem step_take (hstep : s.step (.take x fd) = some t) :
    ∃ h : s.objects x = none ∧ 0 ≤ fd ∧ s.kernel.table fd = none,
      t = { (s.put x (.ofRaw fd)) with kernel := s.kernel.openAt fd h.2.1 h.2.2 } := by
  rw [step, Option.dite_none_right_eq_some] at hstep
  obtain ⟨h, hsome⟩ := hstep
  exact ⟨h, (Option.some.inj hsome).symm⟩

theorem step_moveConstruct (hstep : s.step (.moveConstruct x other) = some t) :
    s.objects x = none ∧ ∃ source, s.objects other = some source
      ∧ t = (s.put other ⟨none⟩).put x ⟨source.rawFileDescriptor⟩ := by
  simp only [step] at hstep
  split at hstep
  case h_1 hx hother => exact ⟨hx, _, hother, (Option.some.inj hstep).symm⟩
  case h_2 => cases hstep

theorem step_moveAssign (hstep : s.step (.moveAssign x other) = some t) :
    (x = other ∧ t = s) ∨ x ≠ other ∧ ∃ source, s.objects other = some source
      ∧ t = (s.put other ⟨none⟩).put x ⟨source.rawFileDescriptor⟩ := by
  simp only [step] at hstep
  split at hstep
  case h_2 => cases hstep
  case h_1 target source hx hother =>
    split at hstep
    case isTrue heq => exact Or.inl ⟨heq, (Option.some.inj hstep).symm⟩
    case isFalse hne => exact Or.inr ⟨hne, source, hother, (Option.some.inj hstep).symm⟩

theorem step_destroy (hstep : s.step (.destroy x) = some t) :
    ∃ object, s.objects x = some object
      ∧ t = ⟨object.destroy s.kernel, Function.update s.objects x none⟩ := by
  simp only [step] at hstep
  split at hstep
  case h_1 object hx => exact ⟨object, hx, (Option.some.inj hstep).symm⟩
  case h_2 => cases hstep

/-- What a move does to the owners. -/
theorem owns_move {source : FileDescriptor}
    (hother : s.objects other = some source) :
    ((s.put other ⟨none⟩).put x ⟨source.rawFileDescriptor⟩).Owns y fd
      ↔ (y = x ∧ s.Owns other fd) ∨ (y ≠ x ∧ y ≠ other ∧ s.Owns y fd) := by
  have hsource : s.Owns other fd ↔ source.rawFileDescriptor = some fd := by
    obtain ⟨raw⟩ := source
    rw [Owns, hother]
    simp
  rw [owns_put, owns_put, hsource]
  simp

/-- **A move into an object that holds nothing exchanges the two**, as far as anybody owns
anything. -/
theorem Held.move {source : FileDescriptor} (h : s.Held) (hne : x ≠ other)
    (hother : s.objects other = some source) (hx : ∀ fd, ¬ s.Owns x fd) :
    ((s.put other ⟨none⟩).put x ⟨source.rawFileDescriptor⟩).Held := by
  refine h.perm rfl (Equiv.swap x other) fun y fd => ?_
  rw [owns_move hother]
  rcases eq_or_ne y x with rfl | hyx
  · simp [Equiv.swap_apply_left]
  · rcases eq_or_ne y other with rfl | hyo
    · simp [Equiv.swap_apply_right, hx, hyx]
    · simp [Equiv.swap_apply_of_ne_of_ne hyx hyo, hyx, hyo]

theorem not_owns_of_none (hx : s.objects x = none) (fd : ℤ) : ¬ s.Owns x fd := by
  rw [Owns, hx]
  exact nofun

theorem Held.construct (h : s.Held) (hx : s.objects x = none) : (s.put x .default).Held := by
  refine h.perm rfl (Equiv.refl ℕ) fun y fd => ?_
  rw [owns_put, FileDescriptor.default]
  rcases eq_or_ne y x with rfl | hyx
  · simp [not_owns_of_none hx]
  · simp [hyx]

theorem Held.take (h : s.Held) (hx : s.objects x = none) (hfd : 0 ≤ fd)
    (hfree : s.kernel.table fd = none) :
    FdState.Held { (s.put x (.ofRaw fd)) with kernel := s.kernel.openAt fd hfd hfree } := by
  -- the owners are the old ones and `x`, which had no number before
  have howns : ∀ y fd', (s.put x (.ofRaw fd)).Owns y fd' ↔ (y = x ∧ fd' = fd) ∨ s.Owns y fd' := by
    intro y fd'
    rw [owns_put, FileDescriptor.ofRaw]
    rcases eq_or_ne y x with rfl | hyx
    · simp [not_owns_of_none hx, eq_comm]
    · simp [hyx]
  have hnone : ∀ y, ¬ s.Owns y fd := fun y hy => by
    have := h.isOpen y fd hy
    rw [hfree] at this
    cases this
  refine ⟨fun fd' d hd => ?_, fun y fd' hy => ?_, fun y z fd' hy hz => ?_, h.noFailedClose⟩
  · rcases (s.kernel.update_open_eq_some_iff hfree).mp hd with ⟨rfl, -⟩ | hd
    · exact ⟨x, (howns x fd').mpr (Or.inl ⟨rfl, rfl⟩)⟩
    · obtain ⟨y, hy⟩ := h.owner fd' d hd
      exact ⟨y, (howns y fd').mpr (Or.inr hy)⟩
  · change (Function.update s.kernel.table fd (some s.kernel.opened) fd').isSome
    rcases (howns y fd').mp hy with ⟨-, rfl⟩ | hy
    · rw [Function.update_self]
      rfl
    · have hne : fd' ≠ fd := fun heq => hnone y (heq ▸ hy)
      rw [Function.update_of_ne hne]
      exact h.isOpen y fd' hy
  · rcases (howns y fd').mp hy with ⟨rfl, rfl⟩ | hy
    · rcases (howns z fd').mp hz with ⟨rfl, -⟩ | hz
      · rfl
      · exact absurd hz (hnone z)
    · rcases (howns z fd').mp hz with ⟨-, hfd'⟩ | hz
      · exact absurd (hfd' ▸ hy) (hnone y)
      · exact h.unique y z fd' hy hz

theorem Held.destroy (h : s.Held) {object : FileDescriptor} (hx : s.objects x = some object) :
    FdState.Held ⟨object.destroy s.kernel, Function.update s.objects x none⟩ := by
  have howns : ∀ k : FdTable, ∀ y fd,
      FdState.Owns ⟨k, Function.update s.objects x none⟩ y fd ↔ y ≠ x ∧ s.Owns y fd := by
    intro k y fd
    rw [Owns]
    rcases eq_or_ne y x with rfl | hyx
    · simp
    · simp [hyx, Owns]
  obtain ⟨_ | fd⟩ := object
  · refine h.perm rfl (Equiv.refl ℕ) fun y fd => ?_
    rw [howns]
    rcases eq_or_ne y x with rfl | hyx
    · simp [Owns, hx]
    · simp [hyx]
  · obtain ⟨d, hd⟩ := Option.isSome_iff_exists.mp (h.isOpen x fd hx)
    rw [FileDescriptor.destroy_some, s.kernel.close_of_open hd]
    refine ⟨fun fd' d' hd' => ?_, fun y fd' hy => ?_, fun y z fd' hy hz => ?_, h.noFailedClose⟩
    · obtain ⟨hne, hd'⟩ := s.kernel.update_none_eq_some_iff.mp hd'
      obtain ⟨y, hy⟩ := h.owner fd' d' hd'
      refine ⟨y, (howns _ y fd').mpr ⟨fun heq => hne ?_, hy⟩⟩
      rw [heq, Owns, hx] at hy
      exact (Option.some.inj (FileDescriptor.mk.inj (Option.some.inj hy))).symm
    · obtain ⟨hyx, hy⟩ := (howns _ y fd').mp hy
      have hne : fd' ≠ fd := fun heq => hyx (h.unique y x fd (heq ▸ hy) hx)
      change (Function.update s.kernel.table fd none fd').isSome
      rw [Function.update_of_ne hne]
      exact h.isOpen y fd' hy
    · exact h.unique y z fd' ((howns _ y fd').mp hy).2 ((howns _ z fd').mp hz).2

theorem held_init : fdSystem.init.Held where
  owner _ _ h := nomatch h
  isOpen _ _ h := nomatch h
  unique _ _ _ h := nomatch h
  noFailedClose := rfl

/-- Every operation that meets the condition keeps the owners. -/
theorem held_of_step {action : FdAction} (h : s.Held) (hstep : s.step action = some t)
    (hempty : AssignsToEmpty s action) : t.Held := by
  cases action with
  | construct x =>
    obtain ⟨hx, rfl⟩ := step_construct hstep
    exact h.construct hx
  | take x fd =>
    obtain ⟨⟨hx, hfd, hfree⟩, rfl⟩ := step_take hstep
    exact h.take hx hfd hfree
  | moveConstruct x other =>
    obtain ⟨hx, source, hother, rfl⟩ := step_moveConstruct hstep
    have hne : x ≠ other := fun heq => by
      rw [heq, hother] at hx
      cases hx
    exact h.move hne hother (not_owns_of_none hx)
  | moveAssign x other =>
    rcases step_moveAssign hstep with ⟨-, rfl⟩ | ⟨hne, source, hother, rfl⟩
    · exact h
    · exact h.move hne hother (hempty.resolve_left hne)
  | destroy x =>
    obtain ⟨object, hx, rfl⟩ := step_destroy hstep
    exact h.destroy hx

/-- **An assignment to another object leaves what it held with no owner.** -/
theorem not_ownedOnce_of_step {action : FdAction} (h : s.Held) (hstep : s.step action = some t)
    (hmiss : ¬ AssignsToEmpty s action) : ¬ t.OwnedOnce := by
  cases action with
  | construct | take | moveConstruct | destroy => exact absurd trivial hmiss
  | moveAssign x other =>
    obtain ⟨hne, hx⟩ := not_or.mp hmiss
    obtain ⟨fd, hx⟩ := not_forall_not.mp hx
    obtain ⟨source, hother, rfl⟩ := ((step_moveAssign hstep).resolve_left fun h' => hne h'.1).2
    obtain ⟨d, hd⟩ := Option.isSome_iff_exists.mp (h.isOpen x fd hx)
    rintro ⟨howned, -⟩
    rcases howned d (s.kernel.lt_opened fd d hd) with ⟨fd', hd', ⟨y, hy, -⟩, -⟩ | ⟨hclosed, -⟩
    · obtain rfl := s.kernel.injective fd' fd d hd' hd
      rcases (owns_move hother).mp hy with ⟨-, hother⟩ | ⟨hyx, -, hy⟩
      · exact hne (h.unique x other fd' hx hother)
      · exact hyx (h.unique y x fd' hy hx)
    · exact hclosed fd hd

end FdState

/-- **Descriptors are owned once and closed once throughout a program exactly if no move assignment
from another object meets a target that holds one.** -/
theorem forall_ownedOnce_iff (actions : List FdAction) :
    (∀ s ∈ fdSystem.visited actions, s.OwnedOnce)
      ↔ ∀ m ∈ fdSystem.moves actions, AssignsToEmpty m.src m.act :=
  System.forall_visited_iff_moves FdState.Held FdState.held_init (fun _ => FdState.Held.ownedOnce)
    (fun _ _ _ => FdState.held_of_step) (fun _ _ _ => FdState.not_ownedOnce_of_step) actions

/-- Two objects take in descriptors 3 and 4; the second is moved into the first. -/
def assignOver : List FdAction := [.take 0 3, .take 1 4, .moveAssign 0 1]

/-- Number 3 is open then, and no object holds it. -/
theorem not_ownedOnce_assignOver : ¬ ∀ s ∈ fdSystem.visited assignOver, s.OwnedOnce := by
  intro h
  obtain ⟨t, ht⟩ : ∃ t, fdSystem.run assignOver = some t := ⟨_, rfl⟩
  have htable : t.kernel.table 3 = some 0 := by rw [← Option.some.inj ht]; rfl
  have hobjects : ∀ x, ¬ t.Owns x 3 := by
    rw [← Option.some.inj ht]
    rintro (_ | _ | x) hx
    · exact absurd hx (by decide)
    · exact absurd hx (by decide)
    · cases hx
  obtain ⟨howned, -⟩ := h t (fdSystem.mem_visited_of_run ht)
  rcases howned 0 (t.kernel.lt_opened 3 0 htable) with ⟨fd, hfd, ⟨x, hx, -⟩, -⟩ | ⟨hclosed, -⟩
  · exact hobjects x (t.kernel.injective fd 3 0 hfd htable ▸ hx)
  · exact hclosed 3 htable

end YServer
