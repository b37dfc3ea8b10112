import YServer.Machinery.Pieces
import Mathlib.Data.Prod.Basic

/-!
# Machinery/Cut — cutting a list once, at the first occurrence of a delimiter

    s  =  p ++ d ++ r      `cut d s = some (p, r)`,   no occurrence of `d` before the one shown

Reading a field of a text up to its delimiter is one `cut`.  A field comes back as it was written
exactly when it does not contain the delimiter itself; for one letter (`cut_append_iff_notMem`) and
for a delimiter that does not overlap itself (`cut_append_iff_notInfix`) nothing else can happen,
since no occurrence of it straddles the end of the field.  The pieces of a joined text are then the
ones that were joined (`pieces_intercalate`).
-/

namespace Machinery

variable {α : Type*} [DecidableEq α]

/-- What stands before the first occurrence of `d` in `s`, and what stands behind it. -/
def cut (d : List α) : List α → Option (List α × List α)
  | [] => if d = [] then some ([], []) else none
  | c :: s =>
    if d <+: c :: s then some ([], (c :: s).drop d.length)
    else (cut d s).map (Prod.map (c :: ·) id)

variable {d s p r : List α}

/-- At a delimiter the cut is made. -/
theorem cut_delimiter_append (d s : List α) : cut d (d ++ s) = some ([], s) := by
  cases hds : d ++ s with
  | nil =>
    obtain ⟨rfl, rfl⟩ := List.append_eq_nil_iff.mp hds
    rfl
  | cons c t => rw [cut, if_pos ⟨s, hds⟩, ← hds, List.drop_left]

/-- Elsewhere one more letter stands before it. -/
theorem cut_cons_of_not_isPrefix {c : α} (h : ¬ d <+: c :: s) :
    cut d (c :: s) = (cut d s).map (Prod.map (c :: ·) id) := by
  rw [cut, if_neg h]

/-- **A cut loses only the delimiter** — by induction on the list. -/
theorem eq_append_of_cut (h : cut d s = some (p, r)) : s = p ++ d ++ r := by
  induction s generalizing p with
  | nil =>
    rw [cut, Option.ite_none_right_eq_some, Option.some_inj, Prod.mk.injEq] at h
    obtain ⟨rfl, rfl, rfl⟩ := h
    rfl
  | cons c s ih =>
    by_cases hd : d <+: c :: s
    · obtain ⟨t, ht⟩ := hd
      rw [← ht, cut_delimiter_append, Option.some_inj, Prod.mk.injEq] at h
      obtain ⟨rfl, rfl⟩ := h
      exact ht.symm
    · rw [cut_cons_of_not_isPrefix hd] at h
      obtain ⟨⟨p', r'⟩, hcut, heq⟩ := Option.map_eq_some_iff.mp h
      obtain ⟨rfl, rfl⟩ := Prod.mk.inj heq
      rw [ih hcut]
      rfl

/-- **What follows does not change where a cut is made.** -/
theorem cut_append_right (h : cut d s = some (p, r)) (t : List α) :
    cut d (s ++ t) = some (p, r ++ t) := by
  induction s generalizing p with
  | nil =>
    rw [cut, Option.ite_none_right_eq_some, Option.some_inj, Prod.mk.injEq] at h
    obtain ⟨rfl, rfl, rfl⟩ := h
    exact cut_delimiter_append [] t
  | cons c s ih =>
    by_cases hd : d <+: c :: s
    · obtain ⟨u, hu⟩ := hd
      rw [← hu, cut_delimiter_append, Option.some_inj, Prod.mk.injEq] at h
      obtain ⟨rfl, rfl⟩ := h
      rw [← hu, List.append_assoc, cut_delimiter_append]
    · rw [cut_cons_of_not_isPrefix hd] at h
      obtain ⟨⟨p', r'⟩, hcut, heq⟩ := Option.map_eq_some_iff.mp h
      obtain ⟨rfl, rfl⟩ := Prod.mk.inj heq
      have hlong : ¬ d <+: c :: (s ++ t) := fun hpre => hd ?_
      · rw [List.cons_append, cut_cons_of_not_isPrefix hlong, ih hcut]
        rfl
      · -- the delimiter that was found is not longer than what it was found in
        refine List.prefix_of_prefix_length_le hpre (List.prefix_append (c :: s) t) ?_
        have hlength := congrArg List.length (eq_append_of_cut hcut)
        rw [List.length_append, List.length_append] at hlength
        rw [List.length_cons]
        omega

/-- **The cut is at the first occurrence**, hence where nothing before it starts one — by induction
on what stands before. -/
theorem cut_append_iff (d p r : List α) :
    cut d (p ++ d ++ r) = some (p, r) ↔ ∀ i < p.length, ¬ d <+: (p ++ d ++ r).drop i := by
  induction p with
  | nil => exact ⟨fun _ i hi => absurd hi (Nat.not_lt_zero i), fun _ => cut_delimiter_append d r⟩
  | cons c p ih =>
    constructor
    · intro h
      have hd : ¬ d <+: c :: (p ++ d ++ r) := by
        rintro ⟨t, ht⟩
        rw [List.cons_append, List.cons_append, ← ht, cut_delimiter_append] at h
        cases h
      rw [List.cons_append, List.cons_append, cut_cons_of_not_isPrefix hd] at h
      obtain ⟨⟨p', r'⟩, hcut, heq⟩ := Option.map_eq_some_iff.mp h
      obtain ⟨hp, rfl⟩ := Prod.mk.inj heq
      obtain rfl := (List.cons.inj hp).2
      intro i hi
      cases i with
      | zero => exact hd
      | succ i => exact ih.mp hcut i (Nat.lt_of_succ_lt_succ hi)
    · intro h
      have hd : ¬ d <+: c :: (p ++ d ++ r) := h 0 (Nat.succ_pos _)
      have hrest : cut d (p ++ d ++ r) = some (p, r) :=
        ih.mpr fun i hi => h (i + 1) (Nat.succ_lt_succ hi)
      rw [List.cons_append, List.cons_append, cut_cons_of_not_isPrefix hd, hrest]
      rfl

/-- A list without the delimiter is not cut. -/
theorem cut_eq_none_iff : cut d s = none ↔ ¬ d <:+: s := by
  induction s with
  | nil => simp [cut]
  | cons c s ih =>
    rw [List.infix_cons_iff, not_or, ← ih]
    by_cases hd : d <+: c :: s
    · simp [cut, hd]
    · simp [cut, hd]

/-! ## A delimiter of one letter -/

section OneLetter

variable {x : α}

/-- **A field comes back from a cut at one letter iff it is without that letter.** -/
theorem cut_append_iff_notMem : cut [x] (p ++ [x] ++ r) = some (p, r) ↔ x ∉ p := by
  rw [cut_append_iff]
  constructor
  · intro h hx
    obtain ⟨i, hi, hget⟩ := List.getElem_of_mem hx
    refine h i hi ⟨(p.drop (i + 1)) ++ [x] ++ r, ?_⟩
    rw [List.append_assoc, List.append_assoc, List.drop_append_of_le_length hi.le,
      List.drop_eq_getElem_cons hi, hget]
    rfl
  · intro hx i hi
    rw [List.append_assoc]
    exact not_prefix_drop_of_notMem hx _ hi

theorem notMem_of_cut (h : cut [x] s = some (p, r)) : x ∉ p :=
  cut_append_iff_notMem.mp (eq_append_of_cut h ▸ h)

/-- The two conditions on a cut at one letter. -/
theorem cut_singleton_eq_some_iff :
    cut [x] s = some (p, r) ↔ s = p ++ [x] ++ r ∧ x ∉ p := by
  refine ⟨fun h => ⟨eq_append_of_cut h, notMem_of_cut h⟩, ?_⟩
  rintro ⟨rfl, hx⟩
  exact cut_append_iff_notMem.mpr hx

end OneLetter

/-! ## A delimiter that does not overlap itself -/

section Unbordered

/-- No non-empty proper prefix of the delimiter is also its suffix. -/
def Unbordered (d : List α) : Prop := ∀ q, q <+: d → q <:+ d → q = [] ∨ q = d

omit [DecidableEq α] in
/-- A delimiter of two different letters is one. -/
theorem unbordered_pair {x y : α} (hxy : x ≠ y) : Unbordered [x, y] := by
  intro q hpre hsuf
  rcases List.prefix_cons_iff.mp hpre with rfl | ⟨e, rfl, he⟩
  · exact Or.inl rfl
  rcases List.prefix_cons_iff.mp he with rfl | ⟨t, rfl, ht⟩
  · have hx : x ∈ [y] := ((List.suffix_cons_iff.mp hsuf).resolve_left (by simp)).mem (by simp)
    exact absurd (List.mem_singleton.mp hx) hxy
  · obtain rfl := List.prefix_nil.mp ht
    exact Or.inr rfl

omit [DecidableEq α] in
/-- **An occurrence of it does not straddle the end of what stands before it**: what is left of the
one at the other would be a border. -/
theorem infix_of_isPrefix_drop (hd : Unbordered d) {i : ℕ} (hi : i < p.length)
    (h : d <+: (p ++ (d ++ r)).drop i) : d <:+: p := by
  rw [List.drop_append_of_le_length hi.le] at h
  have hq : p.drop i <+: p.drop i ++ (d ++ r) := List.prefix_append _ _
  rcases Nat.le_total d.length (p.drop i).length with hle | hle
  · exact (List.prefix_of_prefix_length_le h hq hle).isInfix.trans (List.drop_suffix i p).isInfix
  · obtain ⟨e, he⟩ := List.prefix_of_prefix_length_le hq h hle
    have hpre : e <+: d := by
      rw [← he, List.prefix_append_right_inj, he] at h
      refine List.prefix_of_prefix_length_le h (List.prefix_append d r) ?_
      rw [← he, List.length_append]
      exact Nat.le_add_left _ _
    rcases hd e hpre ⟨p.drop i, he⟩ with rfl | rfl
    · rw [List.append_nil] at he
      exact he ▸ (List.drop_suffix i p).isInfix
    · have hnil : p.drop i = [] := List.append_left_eq_self.mp he
      exact absurd (List.drop_eq_nil_iff.mp hnil) (Nat.not_le.mpr hi)

/-- What is cut off is without the delimiter, overlapping or not. -/
theorem not_infix_of_cut (hne : d ≠ []) (h : cut d s = some (p, r)) : ¬ d <:+: p := by
  rintro ⟨a, b, rfl⟩
  obtain rfl := eq_append_of_cut h
  have hlt : a.length < (a ++ d ++ b).length := by
    have := List.length_pos_iff.mpr hne
    simp only [List.length_append]
    omega
  refine (cut_append_iff d _ r).mp h a.length hlt ⟨b ++ (d ++ r), ?_⟩
  simp only [List.append_assoc, List.drop_left]

/-- **A field comes back from a cut at such a delimiter iff it is without it.** -/
theorem cut_append_iff_notInfix (hne : d ≠ []) (hd : Unbordered d) :
    cut d (p ++ d ++ r) = some (p, r) ↔ ¬ d <:+: p := by
  refine ⟨not_infix_of_cut hne, fun h => (cut_append_iff d p r).mpr fun i hi hpre => h ?_⟩
  rw [List.append_assoc] at hpre
  exact infix_of_isPrefix_drop hd hi hpre

end Unbordered

/-! ## A delimiter of two letters -/

section TwoLetters

variable {x y : α}

omit [DecidableEq α] in
/-- A letter that is not of the delimiter keeps its occurrences apart. -/
theorem infix_append_cons_iff {c : α} (hx : c ≠ x) (hy : c ≠ y) {q : List α} :
    [x, y] <:+: p ++ c :: q ↔ [x, y] <:+: p ∨ [x, y] <:+: q := by
  induction p with
  | nil =>
    rw [List.nil_append, List.infix_cons_iff, List.cons_prefix_cons]
    simp [hx.symm]
  | cons b p ih =>
    rw [List.cons_append, List.infix_cons_iff, ih, List.infix_cons_iff, or_assoc]
    refine or_congr_left ?_
    cases p with
    | nil => simp [List.cons_prefix_cons, hy.symm]
    | cons b' p => simp [List.cons_prefix_cons]

end TwoLetters

/-! ## Cutting again and again -/

/-- The first piece is what the cut takes off. -/
theorem pieces_of_cut (hd : d ≠ []) (h : cut d s = some (p, r)) :
    pieces d s = p :: pieces d r := by
  obtain rfl := eq_append_of_cut h
  exact pieces_of_first hd ((cut_append_iff d p r).mp h)

theorem pieces_of_cut_eq_none (h : cut d s = none) : pieces d s = [s] := by
  refine pieces_of_forall_not fun i _ hi => cut_eq_none_iff.mp h ?_
  exact hi.isInfix.trans (List.drop_suffix i s).isInfix

/-- **The rule for all pieces**: what holds of a list that is not cut, and carries over from what
is left behind a cut, holds of every list — by induction on its length. -/
theorem cut_induction {motive : List α → Prop} (hd : d ≠ [])
    (whole : ∀ s, cut d s = none → motive s)
    (cutOff : ∀ s p r, cut d s = some (p, r) → motive r → motive s) (s : List α) : motive s := by
  induction hn : s.length using Nat.strong_induction_on generalizing s with
  | _ n ih =>
    cases hcut : cut d s with
    | none => exact whole s hcut
    | some pr =>
      obtain ⟨p, r⟩ := pr
      refine cutOff s p r hcut (ih r.length ?_ r rfl)
      have hlength := congrArg List.length (eq_append_of_cut hcut)
      rw [List.length_append, List.length_append] at hlength
      have := List.length_pos_iff.mpr hd
      omega

/-- **The pieces, each closed by the delimiter, are the list closed by it.** -/
theorem flatten_pieces (hd : d ≠ []) (s : List α) :
    ((pieces d s).map (· ++ d)).flatten = s ++ d := by
  induction s using cut_induction hd with
  | whole s hcut => rw [pieces_of_cut_eq_none hcut]; exact List.append_nil _
  | cutOff s p r hcut ih =>
    rw [pieces_of_cut hd hcut, List.map_cons, List.flatten_cons, ih, eq_append_of_cut hcut,
      ← List.append_assoc]

/-- **No piece contains the delimiter.** -/
theorem not_infix_of_mem_pieces (hd : d ≠ []) {s : List α} : ∀ p ∈ pieces d s, ¬ d <:+: p := by
  induction s using cut_induction hd with
  | whole s hcut =>
    rw [pieces_of_cut_eq_none hcut]
    intro p hp
    obtain rfl := List.mem_singleton.mp hp
    exact cut_eq_none_iff.mp hcut
  | cutOff s q r hcut ih =>
    rw [pieces_of_cut hd hcut]
    intro p hp
    rcases List.mem_cons.mp hp with rfl | hp
    · exact not_infix_of_cut hd hcut
    · exact ih p hp

/-- **Pieces put together come apart again** where the delimiter does not overlap itself — by
induction on the pieces, each of which is cut off as it was put in. -/
theorem pieces_intercalate (hne : d ≠ []) (hd : Unbordered d) {ps : List (List α)}
    (hps : ps ≠ []) (hfree : ∀ p ∈ ps, ¬ d <:+: p) : pieces d (d.intercalate ps) = ps := by
  induction ps with
  | nil => exact absurd rfl hps
  | cons p ps ih =>
    obtain ⟨hp, hfree⟩ := List.forall_mem_cons.mp hfree
    cases ps with
    | nil =>
      rw [List.intercalate_singleton]
      exact pieces_of_cut_eq_none (cut_eq_none_iff.mpr hp)
    | cons q ps =>
      rw [List.intercalate_cons_cons]
      have hcut := (cut_append_iff_notInfix (r := d.intercalate (q :: ps)) hne hd).mpr hp
      rw [pieces_of_cut hne hcut, ih (List.cons_ne_nil q ps) hfree]

end Machinery
