import Mathlib.Data.List.Basic

/-!
# Machinery/Delivery — several messages on one stream

Messages go out on one stream, piece by piece; `put i` counts what has gone out of message `i`.  As
long as a message is only begun when the ones before it are out,

    message 1 ─────────▶│ message 2 ───▶┊···  │ message 3 ···
                        └ all out        └ put 2

the stream carries the messages in their order, and ends inside one of them
(`OneByOne.delivered_isPrefix`).
-/

namespace Machinery

variable {ι α : Type*}

/-- What the stream carries if the pieces of each message stand together. -/
def delivered (l : List ι) (message : ι → List α) (put : ι → ℕ) : List α :=
  (l.map fun i => (message i).take (put i)).flatten

/-- **A message is begun when the ones before it are out.** -/
def OneByOne (l : List ι) (message : ι → List α) (put : ι → ℕ) : Prop :=
  l.Pairwise fun i j => 0 < put j → put i = (message i).length

variable {l pre post : List ι} {message message' : ι → List α} {put put' : ι → ℕ} {k : ι}

theorem delivered_cons (i : ι) (l : List ι) (message : ι → List α) (put : ι → ℕ) :
    delivered (i :: l) message put = (message i).take (put i) ++ delivered l message put := rfl

theorem delivered_append (l l' : List ι) (message : ι → List α) (put : ι → ℕ) :
    delivered (l ++ l') message put = delivered l message put ++ delivered l' message put := by
  rw [delivered, List.map_append, List.flatten_append]
  rfl

theorem delivered_congr (hmessage : ∀ i ∈ l, message' i = message i)
    (hput : ∀ i ∈ l, put' i = put i) : delivered l message' put' = delivered l message put :=
  congrArg List.flatten (List.map_congr_left fun i hi => by rw [hmessage i hi, hput i hi])

theorem OneByOne.congr (h : OneByOne l message put) (hmessage : ∀ i ∈ l, message' i = message i)
    (hput : ∀ i ∈ l, put' i = put i) : OneByOne l message' put' := by
  refine h.imp_of_mem fun {i j} hi hj hij => ?_
  rw [hmessage i hi, hput i hi, hput j hj]
  exact hij

/-- Messages that have not been begun carry nothing. -/
theorem delivered_eq_nil (h : ∀ i ∈ l, put i = 0) : delivered l message put = [] := by
  rw [delivered, List.flatten_eq_nil_iff]
  intro piece hpiece
  obtain ⟨i, hi, rfl⟩ := List.mem_map.mp hpiece
  rw [h i hi, List.take_zero]

/-- **The stream carries the messages in their order.** -/
theorem OneByOne.delivered_isPrefix (h : OneByOne l message put) :
    delivered l message put <+: (l.map message).flatten := by
  induction l with
  | nil => exact List.prefix_refl _
  | cons i l ih =>
    obtain ⟨hi, hl⟩ := List.pairwise_cons.mp h
    rw [delivered_cons, List.map_cons, List.flatten_cons]
    by_cases hfull : put i = (message i).length
    · rw [hfull, List.take_length]
      exact (List.prefix_append_right_inj _).mpr (ih hl)
    · -- so none of the later ones has been begun
      have hlater : ∀ j ∈ l, put j = 0 := fun j hj =>
        Nat.eq_zero_of_not_pos fun hpos => hfull (hi j hj hpos)
      rw [delivered_eq_nil hlater, List.append_nil]
      exact (List.take_prefix _ _).trans (List.prefix_append _ _)

/-- A message that has not been begun may join at the end… -/
theorem OneByOne.concat (h : OneByOne l message put) (hk : put k = 0) :
    OneByOne (l ++ [k]) message put := by
  refine List.pairwise_append.mpr ⟨h, List.pairwise_singleton _ _, fun i _ j hj hpos => ?_⟩
  rw [List.mem_singleton.mp hj, hk] at hpos
  exact absurd hpos (Nat.lt_irrefl 0)

/-- …and carries nothing. -/
theorem delivered_concat (hk : put k = 0) :
    delivered (l ++ [k]) message put = delivered l message put := by
  rw [delivered_append, delivered_eq_nil (l := [k]), List.append_nil]
  intro i hi
  rw [List.mem_singleton.mp hi, hk]

/-- While a message has bytes left, none of the later ones has been begun. -/
theorem OneByOne.put_eq_zero {piece : List α} (h : OneByOne (pre ++ k :: post) message put)
    (hpiece : piece <+: (message k).drop (put k)) (hne : piece ≠ []) : ∀ j ∈ post, put j = 0 := by
  intro j hj
  refine Nat.eq_zero_of_not_pos fun hpos => hne ?_
  have hlast := (List.pairwise_cons.mp (List.pairwise_append.mp h).2.1).1 j hj hpos
  rw [hlast, List.drop_length] at hpiece
  exact List.prefix_nil.mp hpiece

/-- **The next piece of a message whose turn it is goes to the end of the stream.** -/
theorem OneByOne.grow {piece : List α} (h : OneByOne (pre ++ k :: post) message put) (put' : ι → ℕ)
    (hnodup : (pre ++ k :: post).Nodup) (hfull : ∀ i ∈ pre, put i = (message i).length)
    (hpiece : piece <+: (message k).drop (put k)) (hne : piece ≠ [])
    (hk : put' k = put k + piece.length) (hother : ∀ i, i ≠ k → put' i = put i) :
    OneByOne (pre ++ k :: post) message put' ∧
      delivered (pre ++ k :: post) message put'
        = delivered (pre ++ k :: post) message put ++ piece := by
  obtain ⟨-, hrest, hdisjoint⟩ := List.nodup_append.mp hnodup
  have hpre : ∀ i ∈ pre, put' i = put i := fun i hi =>
    hother i (hdisjoint i hi k List.mem_cons_self)
  have hpost : ∀ j ∈ post, put' j = put j := fun j hj =>
    hother j fun heq => (List.nodup_cons.mp hrest).1 (heq ▸ hj)
  have hzero := h.put_eq_zero hpiece hne
  have hzero' : ∀ j ∈ post, put' j = 0 := fun j hj => (hpost j hj).trans (hzero j hj)
  obtain ⟨hold, hnew, -⟩ := List.pairwise_append.mp h
  constructor
  · refine List.pairwise_append.mpr ⟨OneByOne.congr hold (fun _ _ => rfl) hpre,
      List.pairwise_cons.mpr ⟨fun j hj hpos => ?_, ?_⟩, fun i hi j hj hpos => ?_⟩
    · rw [hzero' j hj] at hpos
      exact absurd hpos (Nat.lt_irrefl 0)
    · exact OneByOne.congr (List.pairwise_cons.mp hnew).2 (fun _ _ => rfl) hpost
    · rw [hpre i hi, hfull i hi]
  · have hgrown : (message k).take (put' k) = (message k).take (put k) ++ piece := by
      rw [hk, List.take_add, ← List.prefix_iff_eq_take.mp hpiece]
    rw [delivered_append, delivered_append, delivered_cons, delivered_cons, hgrown,
      delivered_congr (fun _ _ => rfl) hpre, delivered_eq_nil hzero, delivered_eq_nil hzero',
      List.append_nil, List.append_nil, List.append_assoc]

end Machinery
