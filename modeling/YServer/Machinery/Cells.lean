import Mathlib.Data.List.Perm.Basic
import Mathlib.Data.List.Nodup
import Mathlib.Logic.Function.Basic

/-!
# Machinery/Cells — a memory, cell by cell

`HoldsCells P m cells`: the memory `m` has exactly these cells, all at different places, and
everywhere else something with `P`.  A list of cells may be permuted, so each rule is about its
first one:

    (k, x), cells   ──write y──▸   (k, y), cells
             cells  ──alloc y──▸   (k, y), cells
    (k, x), cells   ───free────▸   cells            if P x
-/

namespace Machinery

variable {κ β : Type*} {P : β → Prop} {m : κ → β} {k : κ} {x : β} {cells cells' : List (κ × β)}

structure HoldsCells (P : β → Prop) (m : κ → β) (cells : List (κ × β)) : Prop where
  read_of_mem : ∀ c ∈ cells, m c.1 = c.2
  nodup : (cells.map Prod.fst).Nodup
  others : ∀ k, k ∉ cells.map Prod.fst → P (m k)

namespace HoldsCells

theorem perm (h : HoldsCells P m cells) (hperm : cells.Perm cells') : HoldsCells P m cells' where
  read_of_mem c hc := h.read_of_mem c (hperm.mem_iff.mpr hc)
  nodup := (hperm.map Prod.fst).nodup_iff.mp h.nodup
  others k hk := h.others k fun hmem => hk ((hperm.map Prod.fst).mem_iff.mp hmem)

theorem read (h : HoldsCells P m ((k, x) :: cells)) : m k = x :=
  h.read_of_mem (k, x) List.mem_cons_self

theorem notMem (h : HoldsCells P m ((k, x) :: cells)) : k ∉ cells.map Prod.fst :=
  (List.nodup_cons.mp h.nodup).1

theorem free (h : HoldsCells P m ((k, x) :: cells)) (hx : P x) : HoldsCells P m cells where
  read_of_mem c hc := h.read_of_mem c (List.mem_cons_of_mem _ hc)
  nodup := (List.nodup_cons.mp h.nodup).2
  others k' hk' := by
    by_cases heq : k' = k
    · rw [heq, h.read]
      exact hx
    · exact h.others k' fun hmem => (List.mem_cons.mp hmem).elim heq hk'

variable [DecidableEq κ]

theorem update_of_mem (hread : ∀ c ∈ cells, m c.1 = c.2) (hk : k ∉ cells.map Prod.fst) (y : β) :
    ∀ c ∈ (k, y) :: cells, Function.update m k y c.1 = c.2 := by
  intro c hc
  rcases List.mem_cons.mp hc with rfl | hc
  · exact Function.update_self ..
  · have hne : c.1 ≠ k := fun heq => hk (heq ▸ List.mem_map_of_mem hc)
    rw [Function.update_of_ne hne]
    exact hread c hc

/-- A place that is nobody's may be taken… -/
theorem alloc (h : HoldsCells P m cells) (hk : k ∉ cells.map Prod.fst) (y : β) :
    HoldsCells P (Function.update m k y) ((k, y) :: cells) where
  read_of_mem := update_of_mem h.read_of_mem hk y
  nodup := List.nodup_cons.mpr ⟨hk, h.nodup⟩
  others k' hk' := by
    obtain ⟨hne, hmem⟩ := not_or.mp (mt List.mem_cons.mpr hk')
    rw [Function.update_of_ne hne]
    exact h.others k' hmem

/-- …and one that is ours written to. -/
theorem write (h : HoldsCells P m ((k, x) :: cells)) (y : β) :
    HoldsCells P (Function.update m k y) ((k, y) :: cells) where
  read_of_mem := update_of_mem (fun c hc => h.read_of_mem c (List.mem_cons_of_mem _ hc)) h.notMem y
  nodup := h.nodup
  others k' hk' := by
    have hne : k' ≠ k := (not_or.mp (mt List.mem_cons.mpr hk')).1
    rw [Function.update_of_ne hne]
    exact h.others k' hk'

end HoldsCells

end Machinery
