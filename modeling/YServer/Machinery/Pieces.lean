import Mathlib.Data.List.Infix
import Mathlib.Data.List.Basic

/-!
# Machinery/Pieces — cutting a list at every occurrence of a delimiter

`pieces d s` is what is left of `s` between the occurrences of `d`, taken from the left and without
overlap.  It is determined by two equations: `pieces_of_first` cuts at the first occurrence, and
`pieces_of_forall_not` says there is none.  A delimiter whose first letter the text avoids is the
case every line and every field of a protocol is in.
-/

namespace Machinery

variable {α : Type*} [DecidableEq α]

/-- `pieces`, with the first `skip` letters already spent on a delimiter. -/
def piecesFrom (d : List α) : ℕ → List α → List (List α)
  | _, [] => [[]]
  | skip + 1, _ :: s => piecesFrom d skip s
  | 0, c :: s =>
    if d <+: c :: s then [] :: piecesFrom d (d.length - 1) s
    else (piecesFrom d 0 s).modifyHead (c :: ·)

/-- The pieces of `s` between the occurrences of `d`. -/
def pieces (d s : List α) : List (List α) := piecesFrom d 0 s

variable {d : List α}

theorem piecesFrom_eq_drop (d : List α) (skip : ℕ) (s : List α) :
    piecesFrom d skip s = pieces d (s.drop skip) := by
  induction s generalizing skip with
  | nil => rw [List.drop_nil, pieces, piecesFrom.eq_1, piecesFrom.eq_1]
  | cons c s ih =>
    cases skip with
    | zero => rfl
    | succ skip => exact ih skip

@[simp] theorem pieces_nil (d : List α) : pieces d [] = [[]] := rfl

/-- At a delimiter the current piece ends. -/
theorem pieces_delimiter_append (hd : d ≠ []) (s : List α) :
    pieces d (d ++ s) = [] :: pieces d s := by
  obtain ⟨x, d, rfl⟩ := List.exists_cons_of_ne_nil hd
  rw [List.cons_append, pieces, piecesFrom, if_pos ⟨s, rfl⟩, piecesFrom_eq_drop]
  simp

/-- Elsewhere it takes one more letter. -/
theorem pieces_cons_of_not_isPrefix {c : α} {s : List α} (h : ¬ d <+: c :: s) :
    pieces d (c :: s) = (pieces d s).modifyHead (c :: ·) := by
  rw [pieces, piecesFrom, if_neg h]
  rfl

theorem piecesFrom_ne_nil (d : List α) (skip : ℕ) (s : List α) : piecesFrom d skip s ≠ [] := by
  induction s generalizing skip with
  | nil => rw [piecesFrom.eq_1]; exact List.cons_ne_nil _ _
  | cons c s ih =>
    cases skip with
    | succ skip => exact ih skip
    | zero =>
      rw [piecesFrom]
      split
      · exact List.cons_ne_nil _ _
      · obtain ⟨p, ps, hps⟩ := List.exists_cons_of_ne_nil (ih 0)
        rw [hps]
        exact List.cons_ne_nil _ _

theorem pieces_ne_nil (d s : List α) : pieces d s ≠ [] := piecesFrom_ne_nil d 0 s

/-! ## The first occurrence decides -/

/-- **Cutting at the first occurrence** — by induction on what stands before it. -/
theorem pieces_of_first (hd : d ≠ []) {p s : List α}
    (h : ∀ i < p.length, ¬ d <+: (p ++ d ++ s).drop i) :
    pieces d (p ++ d ++ s) = p :: pieces d s := by
  induction p with
  | nil => exact pieces_delimiter_append hd s
  | cons c p ih =>
    have h0 : ¬ d <+: c :: (p ++ d ++ s) := h 0 (Nat.succ_pos _)
    have hrest : pieces d (p ++ d ++ s) = p :: pieces d s :=
      ih fun i hi => h (i + 1) (Nat.succ_lt_succ hi)
    change pieces d (c :: (p ++ d ++ s)) = _
    rw [pieces_cons_of_not_isPrefix h0, hrest]
    rfl

/-- **A list with no occurrence is one piece.** -/
theorem pieces_of_forall_not {s : List α} (h : ∀ i < s.length, ¬ d <+: s.drop i) :
    pieces d s = [s] := by
  induction s with
  | nil => rfl
  | cons c s ih =>
    have hrest : pieces d s = [s] := ih fun i hi => h (i + 1) (Nat.succ_lt_succ hi)
    rw [pieces_cons_of_not_isPrefix (h 0 (Nat.succ_pos _)), hrest]
    rfl

/-! ## Text that avoids the delimiter's first letter -/

section FirstLetter

variable {x : α} {p : List α}

omit [DecidableEq α] in
theorem not_prefix_drop_of_notMem (h : x ∉ p) (s : List α) {i : ℕ} (hi : i < p.length) :
    ¬ x :: d <+: (p ++ s).drop i := by
  rintro ⟨r, hr⟩
  rw [List.drop_append_of_le_length hi.le, List.drop_eq_getElem_cons hi] at hr
  exact h ((List.cons.inj hr).1 ▸ List.getElem_mem hi)

/-- **A piece without the delimiter's first letter ends at the delimiter.** -/
theorem pieces_append_of_notMem (h : x ∉ p) (s : List α) :
    pieces (x :: d) (p ++ (x :: d) ++ s) = p :: pieces (x :: d) s := by
  refine pieces_of_first (List.cons_ne_nil _ _) fun i hi => ?_
  rw [List.append_assoc]
  exact not_prefix_drop_of_notMem h _ hi

theorem pieces_of_notMem (h : x ∉ p) : pieces (x :: d) p = [p] := by
  refine pieces_of_forall_not fun i hi => ?_
  have := not_prefix_drop_of_notMem (d := d) h [] hi
  rwa [List.append_nil] at this

end FirstLetter

/-- A single letter cuts a list into one piece more than it has of that letter. -/
theorem length_pieces_singleton (x : α) (s : List α) : (pieces [x] s).length = s.count x + 1 := by
  induction s with
  | nil => rfl
  | cons c s ih =>
    by_cases hc : x = c
    · subst hc
      rw [List.count_cons_self, ← ih]
      exact congrArg List.length (pieces_delimiter_append (List.cons_ne_nil x []) s)
    · have hp : ¬ [x] <+: c :: s := fun h => hc (List.cons_prefix_cons.mp h).1
      rw [pieces_cons_of_not_isPrefix hp, List.length_modifyHead, ih,
        List.count_cons_of_ne (Ne.symm hc)]

/-! ## Putting the pieces together again -/

/-- **The pieces with the delimiter between them are the list.** -/
theorem intercalate_pieces (hd : d ≠ []) (s : List α) : d.intercalate (pieces d s) = s := by
  induction hn : s.length using Nat.strong_induction_on generalizing s with
  | _ n ih =>
    subst hn
    rcases s with _ | ⟨c, s⟩
    · exact List.intercalate_singleton
    by_cases hp : d <+: c :: s
    · obtain ⟨r, hr⟩ := hp
      have hlt : r.length < (c :: s).length := by
        have := List.length_pos_iff.mpr hd
        rw [← hr, List.length_append]
        omega
      rw [← hr, pieces_delimiter_append hd, List.intercalate_cons_of_ne_nil (pieces_ne_nil d r),
        ih _ hlt r rfl, List.nil_append]
    · rw [pieces_cons_of_not_isPrefix hp]
      have hs := ih s.length (Nat.lt_succ_self _) s rfl
      rcases hps : pieces d s with _ | ⟨p, _ | ⟨q, ps⟩⟩
      · exact absurd hps (pieces_ne_nil d s)
      · rw [hps, List.intercalate_singleton] at hs
        rw [List.modifyHead_cons, List.intercalate_singleton, hs]
      · rw [hps, List.intercalate_cons_cons] at hs
        rw [List.modifyHead_cons, List.intercalate_cons_cons, ← hs]
        rfl

/-! ## What stands behind an occurrence does not matter to the first piece -/

/-- **The first piece is settled by the first occurrence.** -/
theorem head?_pieces_append {s : List α} (hd : d ≠ []) (h : d <:+: s) (t : List α) :
    (pieces d (s ++ t)).head? = (pieces d s).head? := by
  induction s with
  | nil => exact absurd (List.eq_nil_of_infix_nil h) hd
  | cons c s ih =>
    by_cases hp : d <+: c :: s
    · obtain ⟨r, hr⟩ := hp
      rw [← hr, List.append_assoc, pieces_delimiter_append hd, pieces_delimiter_append hd]
      rfl
    · have hs : d <:+: s := (List.infix_cons_iff.mp h).resolve_left hp
      have hpt : ¬ d <+: c :: (s ++ t) := fun hpt =>
        hp (List.prefix_of_prefix_length_le hpt (List.prefix_append (c :: s) t) h.length_le)
      rw [List.cons_append, pieces_cons_of_not_isPrefix hp, pieces_cons_of_not_isPrefix hpt,
        List.head?_modifyHead, List.head?_modifyHead, ih hs]

end Machinery
