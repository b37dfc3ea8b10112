import YServer.Config.Yaml
import Mathlib.Data.List.Infix
import Mathlib.Logic.Function.Basic

/-!
# Config/LoadFromYaml — which variables does a document reach?

The registry takes names of one set of characters, the walk over the document goes on through
prefixes of another, and only then is the prefix lowercased and looked up:

    Lookup            [a-z._0-9]*                                     ──▸ registered
    listAllMember     [a-z._0-8]*  prefix ──tolower──▸ LookupBase ──▸ fromString

A node is reached if its own path passes the walk's test (`listAllMember_eq`): the paths above it
are prefixes of it.  So a document reaches all the variables it names unless one of their paths has
an upper case letter or a 9 in it (`loadFromYaml_iff`).
-/

namespace YServer

open Yaml

def dot : Byte := 0x2e

/-! ## Config.h -/

/-- `find_first_not_of(chars) == npos`. -/
def OnlyOf (chars string : Bytes) : Prop := ∀ c ∈ string, c ∈ chars

instance (chars string : Bytes) : Decidable (OnlyOf chars string) := List.decidableBAll _ _

/-- The characters of a registered name. -/
def nameChars : Bytes := ascii "abcdefghikjlmnopqrstuvwxyz._0123456789"

/-- The registered variables; what a variable is depends on its type. -/
abbrev ConfigVarMap (V : Type*) := Bytes → Option V

/-- `Config::Lookup(name, description, default_value)`, where `fresh` is the variable it would make;
an invalid name is an exception. -/
def lookup {V : Type*} (datas : ConfigVarMap V) (name : Bytes) (fresh : V) :
    Option (ConfigVarMap V) :=
  match datas name with
  | some _ => some datas
  | none =>
    if OnlyOf nameChars name then some (Function.update datas name (some fresh)) else none

/-- The registry after a sequence of lookups; one that throws registers nothing. -/
def registered {V : Type*} (lookups : List (Bytes × V)) : ConfigVarMap V :=
  lookups.foldl (fun datas l => (lookup datas l.1 l.2).getD datas) fun _ => none

/-! ## Config.cpp -/

/-- The characters of a prefix the walk goes through. -/
def prefixChars : Bytes := ascii "abcdefghikjlmnopqrstuvwxyz._012345678"

/-- The prefix of a key's node. -/
def childPrefix (pre key : Bytes) : Bytes := if pre = [] then key else pre ++ [dot] ++ key

mutual

/-- `listAllMember`: the nodes it puts out, with their prefixes. -/
def listAllMember (pre : Bytes) (node : Node) : List (Bytes × Node) :=
  if OnlyOf prefixChars pre then
    (pre, node) :: match node with
      | .map entries => listEntries pre entries
      | .null | .scalar _ | .sequence _ => []
  else []

/-- Its loop over the entries of a map. -/
def listEntries (pre : Bytes) : List (Node × Node) → List (Bytes × Node)
  | [] => []
  | entry :: entries => listEntry pre entry ++ listEntries pre entries

def listEntry (pre : Bytes) : Node × Node → List (Bytes × Node)
  | (key, node) => listAllMember (childPrefix pre key.scalarText) node

end

section Load

variable {V : Type*} (emit : Node → Bytes) (fromString : V → Bytes → V)

/-- The text a variable is given: that of a scalar, or else what `operator<<` writes. -/
def nodeText (node : Node) : Bytes := if node.isScalar then node.scalarText else emit node

/-- One turn of the loop of `LoadFromYaml`. -/
def loadNode (datas : ConfigVarMap V) (i : Bytes × Node) : ConfigVarMap V :=
  if i.1 = [] then datas
  else
    let key := i.1.map tolower
    match datas key with
    | none => datas
    | some var => Function.update datas key (some (fromString var (nodeText emit i.2)))

/-- `Config::LoadFromYaml`. -/
def loadFromYaml (datas : ConfigVarMap V) (root : Node) : ConfigVarMap V :=
  (listAllMember [] root).foldl (loadNode emit fromString) datas

end Load

/-! ## The nodes of a document and their paths -/

mutual

/-- All nodes of a document, each with the keys on the way to it. -/
def nodesAt (path : List Bytes) (node : Node) : List (List Bytes × Node) :=
  (path, node) :: match node with
    | .map entries => nodesBelow path entries
    | .null | .scalar _ | .sequence _ => []

def nodesBelow (path : List Bytes) : List (Node × Node) → List (List Bytes × Node)
  | [] => []
  | entry :: entries => nodesBehind path entry ++ nodesBelow path entries

def nodesBehind (path : List Bytes) : Node × Node → List (List Bytes × Node)
  | (key, node) => nodesAt (path ++ [key.scalarText]) node

end

/-- The dotted path the keys make. -/
def dotted (path : List Bytes) : Bytes := path.foldl childPrefix []

/-- The nodes of a document. -/
def nodes (root : Node) : List (List Bytes × Node) := nodesAt [] root

/-- The texts of the nodes whose path is a name, whatever the case of their keys. -/
def textsAt (emit : Node → Bytes) (root : Node) (name : Bytes) : List Bytes :=
  ((nodes root).filter fun n => (dotted n.1).map tolower = name).map fun n => nodeText emit n.2

/-- An upper case letter or a 9. -/
def Dropped (c : Byte) : Prop := (0x41 ≤ c ∧ c ≤ 0x5a) ∨ c = 0x39

instance (c : Byte) : Decidable (Dropped c) := inferInstanceAs (Decidable (_ ∨ _))

/-! ## What the walk puts out -/

/-- The nodes below a map are those of its values… -/
theorem nodesAt_eq (path : List Bytes) (node : Node) : nodesAt path node
    = (path, node) :: node.entries.flatMap fun e => nodesAt (path ++ [e.1.scalarText]) e.2 := by
  have hbelow : ∀ entries, nodesBelow path entries
      = entries.flatMap fun e => nodesAt (path ++ [e.1.scalarText]) e.2 := by
    intro entries
    induction entries with
    | nil => rfl
    | cons entry entries ih =>
      obtain ⟨key, node⟩ := entry
      rw [nodesBelow, ih, List.flatMap_cons]
      rfl
  cases node with
  | map entries => exact congrArg (_ :: ·) (hbelow entries)
  | null | scalar | sequence => rfl

/-- …and the walk goes to the same ones. -/
theorem listAllMember_unfold (pre : Bytes) (node : Node) : listAllMember pre node
    = if OnlyOf prefixChars pre then
        (pre, node) :: node.entries.flatMap fun e =>
          listAllMember (childPrefix pre e.1.scalarText) e.2
      else [] := by
  have hentries : ∀ entries, listEntries pre entries
      = entries.flatMap fun e => listAllMember (childPrefix pre e.1.scalarText) e.2 := by
    intro entries
    induction entries with
    | nil => rfl
    | cons entry entries ih =>
      obtain ⟨key, node⟩ := entry
      rw [listEntries, ih, List.flatMap_cons]
      rfl
  cases node with
  | map entries => exact if_congr Iff.rfl (congrArg (_ :: ·) (hentries entries)) rfl
  | null | scalar | sequence => rfl

theorem dotted_concat (path : List Bytes) (key : Bytes) :
    dotted (path ++ [key]) = childPrefix (dotted path) key := List.foldl_concat ..

theorem isPrefix_childPrefix (pre key : Bytes) : pre <+: childPrefix pre key := by
  rw [childPrefix]
  split_ifs with h
  · exact h ▸ List.nil_prefix
  · rw [List.append_assoc]
    exact List.prefix_append _ _

/-- The path of a node goes on into the paths below it. -/
theorem isPrefix_of_mem_nodesAt (node : Node) : ∀ path, ∀ n ∈ nodesAt path node,
    dotted path <+: dotted n.1 := by
  induction node using Node.induction_entries with
  | step node ih =>
    intro path n hn
    rw [nodesAt_eq] at hn
    rcases List.mem_cons.mp hn with rfl | hn
    · exact List.prefix_rfl
    · obtain ⟨entry, hentry, hn⟩ := List.mem_flatMap.mp hn
      refine List.IsPrefix.trans ?_ (ih entry hentry _ n hn)
      rw [dotted_concat]
      exact isPrefix_childPrefix _ _

/-- **The walk puts out the nodes whose own path passes its test** — a prefix of such a path passes
it too, so nothing above such a node keeps the walk from it. -/
theorem listAllMember_eq (node : Node) : ∀ path, listAllMember (dotted path) node
    = ((nodesAt path node).filter fun n => OnlyOf prefixChars (dotted n.1)).map
      fun n => (dotted n.1, n.2) := by
  induction node using Node.induction_entries with
  | step node ih =>
    intro path
    rw [listAllMember_unfold]
    by_cases hvalid : OnlyOf prefixChars (dotted path)
    · rw [if_pos hvalid, nodesAt_eq, List.filter_cons_of_pos (by simpa using hvalid), List.map_cons,
        List.filter_flatMap, List.map_flatMap]
      refine congrArg (_ :: ·) (List.flatMap_congr fun entry hentry => ?_)
      rw [← dotted_concat]
      exact ih entry hentry _
    · rw [if_neg hvalid, List.filter_eq_nil_iff.mpr fun n hn hall => hvalid fun c hc => ?_]
      · rfl
      · exact of_decide_eq_true hall c ((isPrefix_of_mem_nodesAt node path n hn).subset hc)

/-! ## What loading does to a variable -/

section Load

variable {V : Type*} {emit : Node → Bytes} {fromString : V → Bytes → V}

/-- A node changes the variable its lowercased path names. -/
theorem loadNode_apply (datas : ConfigVarMap V) (i : Bytes × Node) {name : Bytes}
    (hname : name ≠ []) : loadNode emit fromString datas i name
      = if i.1.map tolower = name then (datas name).map (fromString · (nodeText emit i.2))
        else datas name := by
  rw [loadNode]
  split_ifs with hempty hi hi
  · rw [hempty] at hi
    exact absurd hi.symm hname
  · rfl
  · subst hi
    cases hvar : datas (i.1.map tolower) with
    | none => simp [hvar]
    | some var => simp [hvar]
  · cases hvar : datas (i.1.map tolower) with
    | none => simp [hvar]
    | some var => simp [hvar, Function.update_of_ne (Ne.symm hi)]

/-- **A variable is given the texts of all nodes the walk puts out under its name** — by induction
on the nodes. -/
theorem foldl_loadNode_apply (output : List (Bytes × Node)) (datas : ConfigVarMap V) {name : Bytes}
    (hname : name ≠ []) : output.foldl (loadNode emit fromString) datas name
      = (datas name).map fun var =>
        ((output.filter fun i => i.1.map tolower = name).map fun i => nodeText emit i.2).foldl
          fromString var := by
  induction output generalizing datas with
  | nil => simp
  | cons i output ih =>
    rw [List.foldl_cons, ih, loadNode_apply datas i hname]
    by_cases hi : i.1.map tolower = name
    · simp [hi, Option.map_map, Function.comp_def]
    · simp [hi]

/-- **What loading a document does to a variable.** -/
theorem loadFromYaml_apply (datas : ConfigVarMap V) (root : Node) {name : Bytes}
    (hname : name ≠ []) : loadFromYaml emit fromString datas root name
      = (datas name).map fun var =>
        (((nodes root).filter fun n =>
            OnlyOf prefixChars (dotted n.1) ∧ (dotted n.1).map tolower = name).map
          fun n => nodeText emit n.2).foldl fromString var := by
  rw [loadFromYaml, foldl_loadNode_apply _ _ hname]
  have hwalk : listAllMember [] root = _ := listAllMember_eq root []
  rw [hwalk, List.filter_map, List.map_map, List.filter_filter]
  simp only [Function.comp_def, Bool.decide_and, Bool.and_comm]
  rfl

end Load

/-! ## When loading reaches the variables a document names -/

/-- The two character sets differ in the 9… -/
theorem nameChars_eq : nameChars = prefixChars ++ [0x39] := by decide

theorem Dropped.notMem_prefixChars {c : Byte} (h : Dropped c) : c ∉ prefixChars := fun hc =>
  (show ∀ c ∈ prefixChars, ¬ Dropped c by decide +kernel) c hc h

/-- …and, as names are compared in lower case, in the upper case letters. -/
theorem notMem_prefixChars_iff {c : Byte} (h : tolower c ∈ nameChars) :
    c ∉ prefixChars ↔ Dropped c := by
  refine ⟨fun hc => ?_, Dropped.notMem_prefixChars⟩
  rw [tolower] at h
  split_ifs at h with hupper
  · exact Or.inl hupper
  · rw [nameChars_eq, List.mem_append, List.mem_singleton] at h
    exact Or.inr (h.resolve_left hc)

/-- Only valid names are registered, and with the variable their lookup made. -/
theorem of_registered {V : Type*} {p : V → Prop} {lookups : List (Bytes × V)}
    (hp : ∀ l ∈ lookups, p l.2) {name : Bytes} {var : V}
    (h : registered lookups name = some var) : OnlyOf nameChars name ∧ p var := by
  induction lookups using List.reverseRecOn generalizing var with
  | nil => cases h
  | append_singleton lookups l ih =>
    have ih := @ih fun l hl => hp l (List.mem_append_left _ hl)
    rw [registered, List.foldl_concat] at h
    change (lookup (registered lookups) l.1 l.2).getD (registered lookups) name = some var at h
    rw [lookup] at h
    split at h
    · exact ih h
    · split_ifs at h with hname
      · rw [Option.getD_some] at h
        by_cases heq : name = l.1
        · subst heq
          rw [Function.update_self] at h
          exact ⟨hname, Option.some.inj h ▸ hp l (List.mem_append_right _ List.mem_cons_self)⟩
        · rw [Function.update_of_ne heq] at h
          exact ih h
      · exact ih h

/-- Variables that remember what `fromString` has been called with. -/
def registry (names : List Bytes) : ConfigVarMap (List Bytes) :=
  registered (names.map fun name => (name, []))

theorem of_registry {names : List Bytes} {name : Bytes} {calls : List Bytes}
    (h : registry names name = some calls) : OnlyOf nameChars name ∧ calls = [] := by
  refine of_registered (p := (· = [])) (fun l hl => ?_) h
  obtain ⟨name, -, rfl⟩ := List.mem_map.mp hl
  rfl

theorem foldl_append_singleton (texts calls : List Bytes) :
    texts.foldl (fun calls text => calls ++ [text]) calls = calls ++ texts := by
  induction texts generalizing calls with
  | nil => exact (List.append_nil calls).symm
  | cons text texts ih => exact (ih _).trans (List.append_assoc ..)

/-- A variable has been given the texts of all nodes it is the path of exactly when these nodes are
those of them the walk puts out. -/
theorem loadFromYaml_registry_iff (emit : Node → Bytes) {names : List Bytes} (root : Node)
    {name : Bytes} {calls : List Bytes} (hname : name ≠ [])
    (hcalls : registry names name = some calls) :
    loadFromYaml emit (fun calls text => calls ++ [text]) (registry names) root name
        = some (textsAt emit root name)
      ↔ ((nodes root).filter fun n =>
            OnlyOf prefixChars (dotted n.1) ∧ (dotted n.1).map tolower = name).map
          (fun n => nodeText emit n.2)
        = ((nodes root).filter fun n => (dotted n.1).map tolower = name).map
          fun n => nodeText emit n.2 := by
  rw [loadFromYaml_apply _ _ hname, hcalls, (of_registry hcalls).2, Option.map_some,
    foldl_append_singleton, List.nil_append, Option.some_inj, textsAt]

/-- A registered variable loses none of its texts to a path without an upper case letter or a 9. -/
theorem onlyOf_prefixChars {names : List Bytes} {calls : List Bytes} {path : Bytes}
    (hcalls : registry names (path.map tolower) = some calls) (hplain : ∀ c ∈ path, ¬ Dropped c) :
    OnlyOf prefixChars path := by
  intro c hc
  by_contra hnot
  exact hplain c hc
    ((notMem_prefixChars_iff ((of_registry hcalls).1 _ (List.mem_map_of_mem hc))).mp hnot)

/-- **After loading a document every variable has been given the texts of all nodes it is the path
of, whatever the case of their keys, and no other variable has been given any** — exactly when no
registered name is the path of a node with an upper case letter or a 9 in it. -/
theorem loadFromYaml_iff (emit : Node → Bytes) (names : List Bytes) (root : Node) :
    (∀ name, name ≠ [] → (registry names name).isSome →
        loadFromYaml emit (fun calls text => calls ++ [text]) (registry names) root name
          = some (textsAt emit root name))
      ↔ ∀ n ∈ nodes root, (∃ c ∈ dotted n.1, Dropped c) →
        registry names ((dotted n.1).map tolower) = none := by
  refine ⟨fun h n hn hdropped => ?_, fun h name hname hsome => ?_⟩
  · -- were its path a name, the walk would put out fewer nodes than have that path
    obtain ⟨c, hc, hdropped⟩ := hdropped
    by_contra hne
    obtain ⟨calls, hcalls⟩ := Option.ne_none_iff_exists'.mp hne
    have hname : (dotted n.1).map tolower ≠ [] := by
      rw [Ne, List.map_eq_nil_iff]
      exact List.ne_nil_of_mem hc
    have hlen := congrArg List.length ((loadFromYaml_registry_iff emit root hname hcalls).mp
      (h _ hname (Option.isSome_iff_ne_none.mpr hne)))
    simp only [List.length_map, Bool.decide_and, ← List.filter_filter] at hlen
    have hall := List.filter_eq_self.mp (List.filter_sublist.eq_of_length hlen)
    have hvalid := of_decide_eq_true (hall n (List.mem_filter.mpr ⟨hn, decide_eq_true rfl⟩))
    exact hdropped.notMem_prefixChars (hvalid c hc)
  · obtain ⟨calls, hcalls⟩ := Option.isSome_iff_exists.mp hsome
    refine (loadFromYaml_registry_iff emit root hname hcalls).mpr
      (congrArg _ (List.filter_congr fun n hn => ?_))
    refine decide_eq_decide.mpr (and_iff_right_of_imp fun heq => ?_)
    rw [← heq] at hcalls
    refine onlyOf_prefixChars hcalls fun c hc hdropped => ?_
    rw [h n hn ⟨c, hc, hdropped⟩] at hcalls
    cases hcalls

/-- A variable `a9`, and a document that sets it to 1. -/
theorem loadFromYaml_a9 : ¬ ∀ (emit : Node → Bytes) (names : List Bytes) (root : Node)
    (name : Bytes), name ≠ [] → (registry names name).isSome →
      loadFromYaml emit (fun calls text => calls ++ [text]) (registry names) root name
        = some (textsAt emit root name) := by
  intro h
  have ha9 := h (fun _ => []) [ascii "a9"]
    (.map [(.scalar (ascii "a9"), .scalar (ascii "1"))]) (ascii "a9") (by decide) (by decide)
  revert ha9
  decide

end YServer
