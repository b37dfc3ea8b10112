import YServer.Config.FlowYaml
import YServer.Machinery.Recursion
import Mathlib.Data.Finset.Image
import Mathlib.Algebra.GroupWithZero.Nat
import Mathlib.Algebra.Order.BigOperators.Group.Finset

/-!
# Config/LexicalCast — a configuration value and its text

The text of a value is YAML, and so is the text of each of its parts: a cast loads the text into a
node and writes every child of the node out again for the cast of the child's type.

    text ──load──▸ node ──child──▸ node ──operator<<──▸ text ──▸ …  ──▸ text = string

A string's cast does nothing, so what ends up in the value is what `operator<<` writes for the
scalar, quotes and all (`castFrom_emit`).  A value comes back as it was exactly when none of its
strings is written in quotes (`survives_iff`).
-/

namespace YServer

open Machinery Yaml

/-! ## The types of configuration variables and their values -/

/-- The order in which a set or map is gone through; it depends on the hash or on `operator<`. -/
structure Iteration where
  list : {α : Type} → Finset α → List α
  coe_list : ∀ {α : Type} (s : Finset α), (list s : Multiset α) = s.val

/-- A type built from strings; `set` and `map` stand for the unordered ones too. -/
inductive Ty
  | string
  | vector (t : Ty)
  | list (t : Ty)
  | set (t : Ty)
  | map (t : Ty)
deriving DecidableEq

/-- `std::map<std::string, V>`. -/
@[ext]
structure StringMap (V : Type) where
  entries : Finset (Bytes × V)
  unique : Set.InjOn Prod.fst (entries : Set (Bytes × V))

instance {V : Type} [DecidableEq V] : DecidableEq (StringMap V) := fun m m' =>
  decidable_of_iff (m.entries = m'.entries) StringMap.ext_iff.symm

namespace StringMap

variable {V : Type}

def empty : StringMap V where
  entries := ∅
  unique := by simp

/-- `insert(std::make_pair(key, value))`: a key that is there keeps its value. -/
def insert (m : StringMap V) (e : Bytes × V) : StringMap V :=
  if h : ∃ e' ∈ m.entries, e'.1 = e.1 then m
  else
    { entries := m.entries.cons e fun he => h ⟨e, he, rfl⟩
      unique := by
        have hnew : ∀ e' ∈ m.entries, e'.1 ≠ e.1 := fun e' he' heq => h ⟨e', he', heq⟩
        rw [Finset.coe_cons, Set.injOn_insert (fun he => hnew e he rfl)]
        exact ⟨m.unique, fun ⟨e', he', heq⟩ => hnew e' he' heq⟩ }

/-- The map with `f` applied to its values. -/
def mapValues {W : Type} [DecidableEq W] (f : V → W) (m : StringMap V) : StringMap W where
  entries := m.entries.image fun e => (e.1, f e.2)
  unique := by
    intro e he e' he' heq
    simp only [Finset.coe_image, Set.mem_image, Finset.mem_coe] at he he'
    obtain ⟨d, hd, rfl⟩ := he
    obtain ⟨d', hd', rfl⟩ := he'
    rw [m.unique hd hd' heq]

end StringMap

/-- The values of a type. -/
@[reducible]
def Val : Ty → Type
  | .string => Bytes
  | .vector t | .list t => List (Val t)
  | .set t => Finset (Val t)
  | .map t => StringMap (Val t)

instance Val.decEq : ∀ t, DecidableEq (Val t)
  | .string => inferInstanceAs (DecidableEq Bytes)
  | .vector t | .list t =>
    haveI := Val.decEq t
    inferInstanceAs (DecidableEq (List (Val t)))
  | .set t =>
    haveI := Val.decEq t
    inferInstanceAs (DecidableEq (Finset (Val t)))
  | .map t =>
    haveI := Val.decEq t
    inferInstanceAs (DecidableEq (StringMap (Val t)))

/-! ## Config.h -/

section Cast

variable (yaml : YamlCpp)

/-- The texts of `node[0]`, …, `node[node.size() - 1]`. -/
def itemTexts : Node → List Bytes
  | .sequence items => items.map yaml.emit
  | .map entries => yaml.mapItems entries
  | .null | .scalar _ => []

/-- The pairs `node.begin()` to `node.end()` goes through; the items of a sequence have no key and
asking for one throws. -/
def pairs : Node → Option (List (Node × Node))
  | .map entries => some entries
  | .sequence (_ :: _) => none
  | .sequence [] | .null | .scalar _ => some []

/-- `vec.insert` for one item after the other. -/
def insertAll {α : Type} [DecidableEq α] (items : List α) : Finset α :=
  items.foldl (fun vec item => insert item vec) ∅

/-- `LexicalCast<std::string, T>`; an exception gives none. -/
def castFrom : (t : Ty) → Bytes → Option (Val t)
  | .string, v => some v
  | .vector t, v | .list t, v => do
    let node ← yaml.load v
    (itemTexts yaml node).mapM (castFrom t)
  | .set t, v => do
    let node ← yaml.load v
    let items ← (itemTexts yaml node).mapM (castFrom t)
    return insertAll items
  | .map t, v => do
    let node ← yaml.load v
    let items ← (← pairs node).mapM fun it =>
      (castFrom t (yaml.emit it.2)).map (it.1.scalarText, ·)
    return items.foldl StringMap.insert StringMap.empty

variable (order : Iteration)

/-- `LexicalCast<T, std::string>`; an exception gives none. -/
def castTo : (t : Ty) → Val t → Option Bytes
  | .string, v => some v
  | .vector t, v | .list t, v => do
    let nodes ← v.mapM fun i => (castTo t i).bind yaml.load
    return yaml.emit (.sequence nodes)
  | .set t, v => do
    let nodes ← (order.list v).mapM fun i => (castTo t i).bind yaml.load
    return yaml.emit (.sequence nodes)
  | .map t, v => do
    let nodes ← (order.list v.entries).mapM fun i =>
      ((castTo t i.2).bind yaml.load).map (Node.scalar i.1, ·)
    return yaml.emit (.map nodes)

/-- `ConfigVar::fromString`: the value the variable is set to, if it is set. -/
def Ty.fromString (t : Ty) (val : Bytes) : Option (Val t) := castFrom yaml t val

/-- `ConfigVar::toString`. -/
def Ty.toString (t : Ty) (v : Val t) : Bytes := (castTo yaml order t v).getD []

end Cast

/-! ## What a document denotes -/

/-- A scalar denotes its text, a sequence the vector, list or set of what its items denote, and a
map with distinct scalar keys the map from their texts. -/
def Denotes : (t : Ty) → Node → Val t → Prop
  | .string, node, v => node = .scalar v
  | .vector t, node, v | .list t, node, v =>
    ∃ items, node = .sequence items ∧ List.Forall₂ (Denotes t) items v
  | .set t, node, v => ∃ items vs, node = .sequence items ∧ List.Forall₂ (Denotes t) items vs
    ∧ vs.toFinset = v
  | .map t, node, v => ∃ entries vs, node = .map entries
    ∧ List.Forall₂ (fun e w => e.1 = .scalar w.1 ∧ Denotes t e.2 w.2) entries vs
    ∧ (vs.map Prod.fst).Nodup ∧ vs.toFinset = v.entries

/-- **The text form of a value is faithful**: all documents that denote the value set a variable to
it, and the variable's text is one of them. -/
structure Survives (yaml : YamlCpp) (order : Iteration) (t : Ty) (v : Val t) : Prop where
  of_document : ∀ doc node, yaml.load doc = some node → Denotes t node v →
    t.fromString yaml doc = some v
  document : ∃ node, yaml.load (t.toString yaml order v) = some node ∧ Denotes t node v
  back : t.fromString yaml (t.toString yaml order v) = some v

/-- No string of the value other than a key is written in quotes. -/
def AllPlain (yaml : YamlCpp) : (t : Ty) → Val t → Prop
  | .string, v => yaml.emit (.scalar v) = v
  | .vector t, v | .list t, v => ∀ i ∈ v, AllPlain yaml t i
  | .set t, v => ∀ i ∈ v, AllPlain yaml t i
  | .map t, v => ∀ e ∈ v.entries, AllPlain yaml t e.2

/-! ## What a cast makes of a document -/

theorem forall₂_map_self {α β : Type} {R : β → α → Prop} {f : α → β} {as : List α}
    (h : ∀ a ∈ as, R (f a) a) : List.Forall₂ R (as.map f) as :=
  List.forall₂_map_left_iff.mpr (List.forall₂_same.mpr h)

theorem insertAll_eq {α : Type} [DecidableEq α] (items : List α) :
    insertAll items = items.toFinset := by
  have hfold : ∀ vec, items.foldl (fun vec item => insert item vec) vec = vec ∪ items.toFinset := by
    induction items with
    | nil => simp
    | cons item items ih =>
      intro vec
      rw [List.foldl_cons, ih, List.toFinset_cons, Finset.insert_union, Finset.union_insert]
  rw [insertAll, hfold, Finset.empty_union]

/-- Inserting pairs with distinct new keys adds all of them. -/
theorem StringMap.mem_foldl_insert {V : Type} (items : List (Bytes × V)) (m : StringMap V)
    (hnodup : (items.map Prod.fst).Nodup) (hnew : ∀ e ∈ items, ∀ e' ∈ m.entries, e'.1 ≠ e.1)
    (e : Bytes × V) : e ∈ (items.foldl insert m).entries ↔ e ∈ m.entries ∨ e ∈ items := by
  induction items generalizing m with
  | nil => simp
  | cons item items ih =>
    rw [List.map_cons, List.nodup_cons] at hnodup
    have hmem : ∀ e', e' ∈ (m.insert item).entries ↔ e' = item ∨ e' ∈ m.entries := by
      intro e'
      rw [insert, dif_neg]
      · exact Finset.mem_cons (h := fun hmem => hnew item List.mem_cons_self _ hmem rfl)
      · rintro ⟨e'', he'', heq⟩
        exact hnew item List.mem_cons_self e'' he'' heq
    rw [List.foldl_cons, ih _ hnodup.2, hmem, List.mem_cons]
    · tauto
    · intro e he e' he' heq
      rcases (hmem e').mp he' with rfl | he'
      · exact hnodup.1 (heq ▸ List.mem_map_of_mem he)
      · exact hnew e (List.mem_cons_of_mem _ he) e' he' heq

section Requote

variable {yaml : YamlCpp} {t : Ty}

/-- The value with all its strings other than keys as they are written. -/
def requote (yaml : YamlCpp) : (t : Ty) → Val t → Val t
  | .string, v => yaml.emit (.scalar v)
  | .vector t, v | .list t, v => List.map (requote yaml t) v
  | .set t, v => Finset.image (requote yaml t) v
  | .map t, v => v.mapValues (requote yaml t)

theorem mapM_castFrom {items : List Node} {vs : List (Val t)}
    (h : List.Forall₂ (fun node v => castFrom yaml t (yaml.emit node) = some (requote yaml t v))
      items vs) :
    (items.map yaml.emit).mapM (castFrom yaml t) = some (vs.map (requote yaml t)) := by
  rw [mapM_eq_some_iff, List.forall₂_map_left_iff, List.forall₂_map_right_iff]
  exact h

/-- **What is written for a node of a document ends up in the value** — by induction on the type. -/
theorem castFrom_emit {node : Node} {v : Val t} (h : Denotes t node v) :
    castFrom yaml t (yaml.emit node) = some (requote yaml t v) := by
  induction t generalizing node with
  | string => exact congrArg (some <| yaml.emit ·) h
  | vector t ih | list t ih =>
    obtain ⟨items, rfl, hitems⟩ := h
    simp only [castFrom, yaml.load_emit, Option.bind_eq_bind, Option.bind_some, itemTexts]
    exact mapM_castFrom (hitems.imp fun _ _ => ih)
  | set t ih =>
    obtain ⟨items, vs, rfl, hitems, rfl⟩ := h
    simp only [castFrom, yaml.load_emit, Option.bind_eq_bind, Option.bind_some, itemTexts,
      mapM_castFrom (hitems.imp fun _ _ => ih), insertAll_eq]
    exact congrArg some (Finset.ext fun v => by simp [requote])
  | map t ih =>
    obtain ⟨entries, vs, rfl, hentries, hnodup, hvs⟩ := h
    have hitems : entries.mapM (fun it =>
        (castFrom yaml t (yaml.emit it.2)).map (it.1.scalarText, ·))
        = some (vs.map fun w => (w.1, requote yaml t w.2)) := by
      rw [mapM_eq_some_iff, List.forall₂_map_right_iff]
      refine hentries.imp fun e w ⟨hkey, hw⟩ => ?_
      rw [hkey, ih hw]
      rfl
    simp only [castFrom, yaml.load_emit, Option.bind_eq_bind, Option.bind_some, pairs, hitems]
    refine congrArg some (StringMap.ext (Finset.ext fun e => ?_))
    rw [StringMap.mem_foldl_insert]
    · simp [StringMap.empty, requote, StringMap.mapValues, ← hvs]
    · simpa [Function.comp_def] using hnodup
    · simp [StringMap.empty]

/-! ## When a value comes back as it was -/

/-- A value in which no string is written in quotes is written as it is… -/
theorem requote_eq_self {v : Val t} (h : AllPlain yaml t v) : requote yaml t v = v := by
  induction t with
  | string => exact h
  | vector t ih | list t ih => exact (List.map_congr_left fun i hi => ih (h i hi)).trans v.map_id
  | set t ih => exact (Finset.image_congr fun i hi => ih (h i hi)).trans Finset.image_id
  | map t ih =>
    refine StringMap.ext ((Finset.image_congr fun e he => ?_).trans Finset.image_id)
    rw [ih (h e he)]
    rfl

/-- …and different values are written differently. -/
theorem requote_injective (yaml : YamlCpp) : ∀ t, Function.Injective (requote yaml t)
  | .string => fun v v' h => by
    have hload := congrArg yaml.load h
    simp only [requote, yaml.load_emit] at hload
    injection hload with hload
    injection hload
  | .vector t | .list t => List.map_injective_iff.mpr (requote_injective yaml t)
  | .set t => Finset.image_injective (requote_injective yaml t)
  | .map t => fun m m' h => by
    refine StringMap.ext (Finset.image_injective ?_ (congrArg StringMap.entries h))
    intro e e' heq
    obtain ⟨hkey, hvalue⟩ := Prod.mk.inj heq
    exact Prod.ext hkey (requote_injective yaml t hvalue)

/-- The length of all strings of a value other than keys. -/
def textLength : (t : Ty) → Val t → ℕ
  | .string, v => v.length
  | .vector t, v | .list t, v => (v.map (textLength t)).sum
  | .set t, v => ∑ i ∈ v, textLength t i
  | .map t, v => ∑ e ∈ v.entries, textLength t e.2

theorem sum_le_sum_and {α : Type} {f g : α → ℕ} (as : List α) (h : ∀ a ∈ as, f a ≤ g a) :
    (as.map f).sum ≤ (as.map g).sum
      ∧ ((as.map f).sum = (as.map g).sum → ∀ a ∈ as, f a = g a) := by
  induction as with
  | nil => simp
  | cons a as ih =>
    obtain ⟨ha, has⟩ := List.forall_mem_cons.mp h
    obtain ⟨hle, heq⟩ := ih has
    simp only [List.map_cons, List.sum_cons, List.forall_mem_cons]
    exact ⟨by omega, fun hsum => ⟨by omega, heq (by omega)⟩⟩

/-- Quotes make a text longer. -/
theorem textLength_requote (yaml : YamlCpp) : ∀ t v,
    textLength t v ≤ textLength t (requote yaml t v)
      ∧ (textLength t v = textLength t (requote yaml t v) → AllPlain yaml t v)
  | .string, v => by
    rcases yaml.emit_scalar v with hplain | hquote
    · exact ⟨(congrArg List.length hplain).ge, fun _ => hplain⟩
    · have hlt := yaml.length_quote v
      simp only [textLength, requote, hquote]
      exact ⟨hlt.le, fun heq => absurd heq hlt.ne⟩
  | .vector t, v | .list t, v => by
    have ih := textLength_requote yaml t
    obtain ⟨hle, heq⟩ := sum_le_sum_and v fun i _ => (ih i).1
    simp only [textLength, requote, List.map_map]
    exact ⟨hle, fun h i hi => (ih i).2 (heq h i hi)⟩
  | .set t, v => by
    have ih := textLength_requote yaml t
    simp only [textLength, requote, Finset.sum_image ((requote_injective yaml t).injOn)]
    exact ⟨Finset.sum_le_sum fun i _ => (ih i).1, fun h i hi =>
      (ih i).2 ((Finset.sum_eq_sum_iff_of_le fun i _ => (ih i).1).mp h i hi)⟩
  | .map t, v => by
    have ih := textLength_requote yaml t
    have hinj : Set.InjOn (fun e : Bytes × Val t => (e.1, requote yaml t e.2)) v.entries := by
      intro e he e' he' heq
      exact v.unique he he' (Prod.mk.inj heq).1
    simp only [textLength, requote, StringMap.mapValues, Finset.sum_image hinj]
    exact ⟨Finset.sum_le_sum fun e _ => (ih e.2).1, fun h e he =>
      (ih e.2).2 ((Finset.sum_eq_sum_iff_of_le fun e _ => (ih e.2).1).mp h e he)⟩

theorem allPlain_iff {v : Val t} : AllPlain yaml t v ↔ requote yaml t v = v :=
  ⟨requote_eq_self, fun h => (textLength_requote yaml t v).2 (congrArg _ h.symm)⟩

end Requote

/-! ## The text of a value -/

theorem Iteration.mem_list (order : Iteration) {α : Type} {s : Finset α} {a : α} :
    a ∈ order.list s ↔ a ∈ s := by
  rw [← Multiset.mem_coe, order.coe_list, Finset.mem_val]

theorem Iteration.nodup_list (order : Iteration) {α : Type} (s : Finset α) :
    (order.list s).Nodup := by
  rw [← Multiset.coe_nodup, order.coe_list]
  exact s.nodup

section Survives

variable {yaml : YamlCpp} {order : Iteration} {t : Ty} {v : Val t}

/-- The node of a value. -/
def toNode (order : Iteration) : (t : Ty) → Val t → Node
  | .string, v => .scalar v
  | .vector t, v | .list t, v => .sequence (v.map (toNode order t))
  | .set t, v => .sequence ((order.list v).map (toNode order t))
  | .map t, v => .map ((order.list v.entries).map fun e => (.scalar e.1, toNode order t e.2))

/-- The node of a value denotes it… -/
theorem denotes_toNode (order : Iteration) : ∀ t v, Denotes t (toNode order t v) v
  | .string, _ => rfl
  | .vector t, v | .list t, v => ⟨_, rfl, forall₂_map_self fun i _ => denotes_toNode order t i⟩
  | .set t, v => by
    refine ⟨_, order.list v, rfl, forall₂_map_self fun i _ => denotes_toNode order t i, ?_⟩
    ext i
    rw [List.mem_toFinset, order.mem_list]
  | .map t, v => by
    refine ⟨_, order.list v.entries, rfl,
      forall₂_map_self fun e _ => ⟨rfl, denotes_toNode order t e.2⟩, ?_, ?_⟩
    · exact (order.nodup_list _).map_on fun e he e' he' =>
        v.unique (order.mem_list.mp he) (order.mem_list.mp he')
    · ext e
      rw [List.mem_toFinset, order.mem_list]

/-- …and is what the text of the value loads to, if no string in it is written in quotes. -/
theorem load_castTo (order : Iteration) (h : AllPlain yaml t v) :
    (castTo yaml order t v).bind yaml.load = some (toNode order t v) := by
  induction t with
  | string =>
    rw [castTo, Option.bind_some, ← yaml.load_emit (toNode order .string v), toNode, h]
  | vector t ih | list t ih =>
    have hitems := mapM_eq_some_map fun i hi => ih (h i hi)
    simp only [castTo, hitems, Option.bind_eq_bind, Option.bind_some, yaml.load_emit, toNode, pure]
  | set t ih =>
    have hitems := mapM_eq_some_map fun i hi => ih (h i (order.mem_list.mp hi))
    simp only [castTo, hitems, Option.bind_eq_bind, Option.bind_some, yaml.load_emit, toNode, pure]
  | map t ih =>
    have hitems := mapM_eq_some_map fun e he =>
      congrArg (Option.map (Node.scalar e.1, ·)) (ih (h e (order.mem_list.mp he)))
    simp only [castTo, hitems, Option.bind_eq_bind, Option.bind_some, yaml.load_emit, toNode, pure]

/-- The cast to a container is that of what the document loads to. -/
theorem castFrom_congr {text text' : Bytes} (ht : t ≠ .string)
    (h : yaml.load text = yaml.load text') : castFrom yaml t text = castFrom yaml t text' := by
  cases t with
  | string => exact absurd rfl ht
  | vector | list | set | map => simp only [castFrom, h]

/-- **The text form of a value is faithful** exactly when the value is not a string itself and none
of its strings other than keys is written in quotes. -/
theorem survives_iff (yaml : YamlCpp) (order : Iteration) (t : Ty) (v : Val t) :
    Survives yaml order t v ↔ t ≠ .string ∧ AllPlain yaml t v := by
  constructor
  · intro h
    have ht : t ≠ .string := by
      rintro rfl
      have hquoted := h.of_document _ _ (yaml.load_quote v) rfl
      have hlt := yaml.length_quote v
      rw [Option.some.inj hquoted] at hlt
      exact lt_irrefl _ hlt
    have hcast := h.of_document _ _ (yaml.load_emit _) (denotes_toNode order t v)
    rw [Ty.fromString, castFrom_emit (denotes_toNode order t v)] at hcast
    exact ⟨ht, allPlain_iff.mpr (Option.some.inj hcast)⟩
  · rintro ⟨ht, hplain⟩
    have hfrom : ∀ doc node, yaml.load doc = some node → Denotes t node v →
        t.fromString yaml doc = some v := by
      intro doc node hload hdenotes
      rw [Ty.fromString, castFrom_congr ht (hload.trans (yaml.load_emit node).symm),
        castFrom_emit hdenotes, allPlain_iff.mp hplain]
    obtain ⟨text, htext, hload⟩ := Option.bind_eq_some_iff.mp (load_castTo order hplain)
    have hdenotes := denotes_toNode order t v
    rw [← Option.getD_some (a := text) (b := []), ← htext] at hload
    exact ⟨hfrom, ⟨_, hload, hdenotes⟩, hfrom _ _ hload hdenotes⟩

end Survives

/-- The elements of a finite set in some order. -/
noncomputable def someOrder : Iteration where
  list := Finset.toList
  coe_list := Finset.coe_toList

/-- `{hosts: [localhost, other]}`. -/
def hostsByName : StringMap (List Bytes) where
  entries := {(ascii "hosts", [ascii "localhost", ascii "other"])}
  unique := by simp

theorem survives_hostsByName :
    Survives Yaml.flow someOrder (.vector (.map (.list .string))) [hostsByName] := by
  refine (survives_iff _ _ _ _).mpr ⟨by decide, List.forall_mem_singleton.mpr fun e he => ?_⟩
  obtain rfl := Finset.mem_singleton.mp he
  have hplain : ∀ host ∈ [ascii "localhost", ascii "other"],
      Yaml.flow.emit (.scalar host) = host := by decide
  exact hplain

/-- **The document `[""]` sets a vector of strings to one with the two quotes in it.** -/
theorem not_survives_quoted :
    ¬ ∀ (yaml : YamlCpp) (order : Iteration) (t : Ty) (v : Val t), Survives yaml order t v := by
  intro h
  have hvector := (h Yaml.flow someOrder (.vector .string) [[]]).of_document (ascii "[\"\"]")
    (.sequence [.scalar []]) rfl ⟨_, rfl, .cons rfl .nil⟩
  revert hvector
  decide

end YServer
