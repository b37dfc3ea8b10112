import YServer.BaseNet.Basic

/-!
# Config/Yaml — the node trees of yaml-cpp

A `YAML::Node` is null, a scalar, a sequence or a map; keys of a map are nodes themselves.  Of the
members the code calls, those that read a node are here; `YAML::Load` and `operator<<` are not part
of the repository (`Config/LexicalCast` says what it takes them for).
-/

namespace YServer

namespace Yaml

/-- `YAML::Node`. -/
inductive Node
  | null
  | scalar (text : Bytes)
  | sequence (items : List Node)
  | map (entries : List (Node × Node))

namespace Node

/-- `Scalar()`: the text of a scalar, and nothing for any other node. -/
def scalarText : Node → Bytes
  | .scalar text => text
  | .null | .sequence _ | .map _ => []

/-- `IsScalar()`. -/
def isScalar : Node → Bool
  | .scalar _ => true
  | .null | .sequence _ | .map _ => false

/-- The entries of a map; there are none in any other node. -/
def entries : Node → List (Node × Node)
  | .map entries => entries
  | .null | .scalar _ | .sequence _ => []

/-- **The rule for maps in maps**: what carries over from the values of a map to the map, and holds
of every other node, holds of all nodes. -/
theorem induction_entries {motive : Node → Prop}
    (step : ∀ node, (∀ entry ∈ node.entries, motive entry.2) → motive node) :
    ∀ node, motive node
  | .null => step _ nofun
  | .scalar _ => step _ nofun
  | .sequence _ => step _ nofun
  | .map _ => step _ fun entry _ => induction_entries step entry.2
termination_by node => sizeOf node
decreasing_by
  have hlt := List.sizeOf_lt_of_mem ‹entry ∈ _›
  obtain ⟨key, value⟩ := entry
  simp only [entries, Node.map.sizeOf_spec, Prod.mk.sizeOf_spec] at hlt ⊢
  omega

/-- The rule for all nodes: what carries over from its children to a node holds of every node. -/
theorem induction_children {motive : Node → Prop} (null : motive .null)
    (scalar : ∀ text, motive (.scalar text))
    (sequence : ∀ items, (∀ item ∈ items, motive item) → motive (.sequence items))
    (map : ∀ entries, (∀ entry ∈ entries, motive entry.1 ∧ motive entry.2) →
      motive (.map entries)) : ∀ node, motive node
  | .null => null
  | .scalar text => scalar text
  | .sequence items => sequence items fun item _ =>
    induction_children null scalar sequence map item
  | .map entries => map entries fun entry _ =>
    ⟨induction_children null scalar sequence map entry.1,
      induction_children null scalar sequence map entry.2⟩
termination_by node => sizeOf node
decreasing_by
  · have hlt := List.sizeOf_lt_of_mem ‹item ∈ _›
    simp only [Node.sequence.sizeOf_spec]
    omega
  all_goals
    have hlt := List.sizeOf_lt_of_mem ‹entry ∈ _›
    obtain ⟨key, value⟩ := entry
    simp only [Node.map.sizeOf_spec, Prod.mk.sizeOf_spec] at hlt ⊢
    omega

end Node

end Yaml

open Yaml

/-- **What is asked of yaml-cpp**: loading takes back what `operator<<` writes, and a quoted
scalar's text; scalars are written plain or quoted. -/
structure YamlCpp where
  /-- `YAML::Load`; it throws if the text is not YAML. -/
  load : Bytes → Option Node
  /-- `ss << node`. -/
  emit : Node → Bytes
  quote : Bytes → Bytes
  /-- What `ss << node[i]` writes for each `i < node.size()` if the node is a map and the indices
  are keys. -/
  mapItems : List (Node × Node) → List Bytes
  load_emit : ∀ node, load (emit node) = some node
  load_quote : ∀ text, load (quote text) = some (.scalar text)
  emit_scalar : ∀ text, emit (.scalar text) = text ∨ emit (.scalar text) = quote text
  length_quote : ∀ text, text.length < (quote text).length

end YServer
