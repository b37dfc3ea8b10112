import YServer.Config.LoadFromYaml
import YServer.Machinery.Recursion
import Mathlib.Data.Fin.VecNotation

/-!
# Config/Aliases — the walk over a document whose nodes are shared

An alias is the very node its anchor names, so what yaml-cpp loads is a graph:

    a: &x            root ──a──▸ x ──b──┐
      b: *x                      ▴──────┘

`listAllMember` stops at a prefix with a bad character and nowhere else, and a prefix stays good as
long as the keys are.  Its calls come to an end exactly when no map it gets to is inside itself
(`listAllMember_ends_iff`).
-/

namespace YServer

open Machinery Relation Yaml

/-- What a node holds; its children are named, not contained. -/
inductive Content (ν : Type)
  | null
  | scalar (text : Bytes)
  | sequence (items : List ν)
  | map (entries : List (ν × ν))

/-- **A loaded document**, with the nodes it has been given memory for. -/
structure Document where
  size : ℕ
  content : Fin size → Content (Fin size)
  root : Fin size

namespace Document

variable (doc : Document)

/-- `Scalar()`. -/
def scalarText (node : Fin doc.size) : Bytes :=
  match doc.content node with
  | .scalar text => text
  | .null | .sequence _ | .map _ => []

/-- `IsScalar()`. -/
def isScalar (node : Fin doc.size) : Bool :=
  match doc.content node with
  | .scalar _ => true
  | .null | .sequence _ | .map _ => false

/-- The entries of a map; there are none in any other node. -/
def entries (node : Fin doc.size) : List (Fin doc.size × Fin doc.size) :=
  match doc.content node with
  | .map entries => entries
  | .null | .scalar _ | .sequence _ => []

/-! ## Config.cpp -/

/-- `listAllMember`, with a bound on how deep its calls may go. -/
def listAllMember : ℕ → Bytes → Fin doc.size → Option (List (Bytes × Fin doc.size))
  | 0, _, _ => none
  | fuel + 1, pre, node =>
    if OnlyOf prefixChars pre then do
      let below ← (doc.entries node).mapM fun it =>
        listAllMember fuel (childPrefix pre (doc.scalarText it.1)) it.2
      return (pre, node) :: below.flatten
    else some []

section Load

variable {V : Type} (emit : Fin doc.size → Bytes) (fromString : V → Bytes → V)

/-- The text a variable is given. -/
def nodeText (node : Fin doc.size) : Bytes :=
  if doc.isScalar node then doc.scalarText node else emit node

/-- `Config::LoadFromYaml`; its loop takes nothing but the text from a node. -/
def loadFromYaml (fuel : ℕ) (datas : ConfigVarMap V) : Option (ConfigVarMap V) :=
  (doc.listAllMember fuel [] doc.root).map fun all_nodes =>
    (all_nodes.map fun i => (i.1, Node.scalar (doc.nodeText emit i.2))).foldl
      (loadNode (fun _ => []) fromString) datas

end Load

/-! ## Where the walk goes -/

/-- The node is the value of a key the walk goes through. -/
def Below (node parent : Fin doc.size) : Prop :=
  ∃ key, (key, node) ∈ doc.entries parent ∧ OnlyOf prefixChars (doc.scalarText key)

/-- **No map the walk gets to is inside itself.** -/
def Acyclic : Prop := ∀ node, ReflTransGen doc.Below node doc.root → ¬ TransGen doc.Below node node

/-- The calls a call makes. -/
def calls (c : Bytes × Fin doc.size) : List (Bytes × Fin doc.size) :=
  if OnlyOf prefixChars c.1 then
    (doc.entries c.2).map fun it => (childPrefix c.1 (doc.scalarText it.1), it.2)
  else []

variable {doc}

theorem fueled_listAllMember : Fueled (fun fuel c => doc.listAllMember fuel c.1 c.2) doc.calls where
  zero _ := rfl
  succ fuel c := by
    rw [listAllMember, calls]
    by_cases hpre : OnlyOf prefixChars c.1
    · rw [if_pos hpre, if_pos hpre, List.forall_mem_map, ← isSome_mapM_iff]
      cases (doc.entries c.2).mapM fun it =>
        doc.listAllMember fuel (childPrefix c.1 (doc.scalarText it.1)) it.2 <;> rfl
    · rw [if_neg hpre, if_neg hpre]
      exact iff_of_true rfl nofun

/-- The dot passes the walk's test, so a prefix passes it if the keys it is made of do. -/
theorem onlyOf_childPrefix_iff {pre key : Bytes} (hpre : OnlyOf prefixChars pre) :
    OnlyOf prefixChars (childPrefix pre key) ↔ OnlyOf prefixChars key := by
  have hdot : dot ∈ prefixChars := by decide
  rw [childPrefix]
  split_ifs
  · rfl
  · simp only [OnlyOf, List.forall_mem_append, List.forall_mem_singleton]
    exact and_iff_right ⟨hpre, hdot⟩

/-- A call goes on to everything below its node… -/
theorem acc_of_acc_calls {c : Bytes × Fin doc.size} (hpre : OnlyOf prefixChars c.1)
    (h : Acc (fun c' c => c' ∈ doc.calls c) c) : Acc doc.Below c.2 := by
  induction h with
  | intro c _ ih =>
    refine Acc.intro c.2 fun node hnode => ?_
    obtain ⟨key, hentry, hkey⟩ := hnode
    have hcall : (childPrefix c.1 (doc.scalarText key), node) ∈ doc.calls c := by
      rw [calls, if_pos hpre]
      exact List.mem_map.mpr ⟨(key, node), hentry, rfl⟩
    exact ih _ hcall ((onlyOf_childPrefix_iff hpre).mpr hkey)

/-- …and to nothing else, but for calls that turn back at once. -/
theorem acc_calls_of_acc {node : Fin doc.size} (h : Acc doc.Below node) (pre : Bytes) :
    Acc (fun c' c => c' ∈ doc.calls c) (pre, node) := by
  induction h generalizing pre with
  | intro node _ ih =>
    refine Acc.intro (pre, node) fun c hc => ?_
    rw [calls] at hc
    split_ifs at hc with hpre
    · obtain ⟨it, hit, rfl⟩ := List.mem_map.mp hc
      by_cases hkey : OnlyOf prefixChars (doc.scalarText it.1)
      · exact ih it.2 ⟨it.1, hit, hkey⟩ _
      · refine Acc.intro _ fun c hc => ?_
        rw [calls, if_neg ((onlyOf_childPrefix_iff hpre).not.mpr hkey)] at hc
        cases hc
    · cases hc

/-- The walk from the root ends if no map it gets to is inside itself, and only then. -/
theorem exists_listAllMember_iff :
    (∃ fuel, (doc.listAllMember fuel [] doc.root).isSome) ↔ doc.Acyclic := by
  have hroot : Acc (fun c' c => c' ∈ doc.calls c) ([], doc.root) ↔ Acc doc.Below doc.root :=
    ⟨acc_of_acc_calls nofun, fun h => acc_calls_of_acc h []⟩
  rw [fueled_listAllMember.exists_isSome_iff_acc ([], doc.root), hroot, acc_iff_forall_not_transGen]
  rfl

/-! ## Documents that are trees -/

/-- The tree below a node, up to a depth. -/
def tree (doc : Document) : ℕ → Fin doc.size → Option Node
  | 0, _ => none
  | fuel + 1, node =>
    match doc.content node with
    | .null => some .null
    | .scalar text => some (.scalar text)
    | .sequence items => (items.mapM (tree doc fuel)).map .sequence
    | .map entries =>
      (entries.mapM fun (it : Fin doc.size × Fin doc.size) =>
        (tree doc fuel it.1).bind fun key => (tree doc fuel it.2).map (key, ·)).map .map

/-- The node unfolds to the tree. -/
def Unfolds (doc : Document) (node : Fin doc.size) (t : Node) : Prop :=
  ∃ fuel, doc.tree fuel node = some t

/-- A member the walk puts out is one of those of a tree. -/
def Shows (doc : Document) (i : Bytes × Fin doc.size) (j : Bytes × Node) : Prop :=
  i.1 = j.1 ∧ doc.Unfolds i.2 j.2

section Unfolds

variable {fuel : ℕ} {node : Fin doc.size} {t : Node}

theorem text_of_tree (h : doc.tree fuel node = some t) :
    doc.scalarText node = t.scalarText ∧ doc.isScalar node = t.isScalar := by
  cases fuel with
  | zero => cases h
  | succ fuel =>
    rw [tree] at h
    rw [scalarText, isScalar]
    cases hcontent : doc.content node with
    | null | scalar text =>
      rw [hcontent] at h
      cases h
      exact ⟨rfl, rfl⟩
    | sequence items | map entries =>
      rw [hcontent] at h
      obtain ⟨_, -, rfl⟩ := Option.map_eq_some_iff.mp h
      exact ⟨rfl, rfl⟩

/-- The entries of the tree unfold from those of the node. -/
theorem entries_of_tree (h : doc.tree (fuel + 1) node = some t) :
    List.Forall₂ (fun it e => doc.tree fuel it.1 = some e.1 ∧ doc.tree fuel it.2 = some e.2)
      (doc.entries node) t.entries := by
  rw [tree] at h
  rw [entries]
  cases hcontent : doc.content node with
  | null | scalar text =>
    rw [hcontent] at h
    cases h
    exact List.Forall₂.nil
  | sequence items =>
    rw [hcontent] at h
    obtain ⟨_, -, rfl⟩ := Option.map_eq_some_iff.mp h
    exact List.Forall₂.nil
  | map entries =>
    rw [hcontent] at h
    obtain ⟨es, hes, rfl⟩ := Option.map_eq_some_iff.mp h
    refine (mapM_eq_some_iff.mp hes).imp fun it e he => ?_
    obtain ⟨key, hkey, he⟩ := Option.bind_eq_some_iff.mp he
    obtain ⟨value, hvalue, rfl⟩ := Option.map_eq_some_iff.mp he
    exact ⟨hkey, hvalue⟩

/-- **Over what unfolds to a tree the walk puts out what it puts out over the tree** — by induction
on the depth. -/
theorem listAllMember_of_tree (h : doc.tree fuel node = some t) (pre : Bytes) :
    ∃ output, doc.listAllMember fuel pre node = some output ∧
      List.Forall₂ doc.Shows output (YServer.listAllMember pre t) := by
  induction fuel generalizing node t pre with
  | zero => cases h
  | succ fuel ih =>
    rw [listAllMember, listAllMember_unfold]
    split_ifs with hpre
    · have hcalls : List.Forall₂ (fun it e => ∃ output,
          doc.listAllMember fuel (childPrefix pre (doc.scalarText it.1)) it.2 = some output ∧
            List.Forall₂ doc.Shows output
              (YServer.listAllMember (childPrefix pre e.1.scalarText) e.2))
          (doc.entries node) t.entries := by
        refine (entries_of_tree h).imp fun it e he => ?_
        rw [(text_of_tree he.1).1]
        exact ih he.2 _
      obtain ⟨below, hbelow, hshows⟩ := exists_mapM_flatten hcalls
      refine ⟨(pre, node) :: below.flatten, ?_, List.Forall₂.cons ⟨rfl, fuel + 1, h⟩ hshows⟩
      rw [hbelow]
      rfl
    · exact ⟨[], rfl, List.Forall₂.nil⟩

theorem nodeText_of_unfolds {emit : Fin doc.size → Bytes} {emitTree : Node → Bytes}
    (hemit : ∀ node t, doc.Unfolds node t → emit node = emitTree t) (h : doc.Unfolds node t) :
    doc.nodeText emit node = YServer.nodeText emitTree t := by
  obtain ⟨fuel, htree⟩ := h
  obtain ⟨htext, hscalar⟩ := text_of_tree htree
  rw [nodeText, YServer.nodeText, htext, hscalar, hemit node t ⟨fuel, htree⟩]

section Load

variable {V : Type} {emit : Fin doc.size → Bytes} {emitTree : Node → Bytes}
  {fromString : V → Bytes → V}

/-- The loop over the members does the same to the registry. -/
theorem foldl_loadNode_of_shows (hemit : ∀ node t, doc.Unfolds node t → emit node = emitTree t)
    {output : List (Bytes × Fin doc.size)} {members : List (Bytes × Node)}
    (h : List.Forall₂ doc.Shows output members) (datas : ConfigVarMap V) :
    (output.map fun i => (i.1, Node.scalar (doc.nodeText emit i.2))).foldl
        (loadNode (fun _ => []) fromString) datas
      = members.foldl (loadNode emitTree fromString) datas := by
  induction h generalizing datas with
  | nil => rfl
  | @cons i j _ _ hij _ ih =>
    have hturn : loadNode (fun _ => []) fromString datas (i.1, .scalar (doc.nodeText emit i.2))
        = loadNode emitTree fromString datas j := by
      rw [loadNode, loadNode, hij.1, nodeText_of_unfolds hemit hij.2]
      rfl
    rw [List.map_cons, List.foldl_cons, List.foldl_cons, hturn, ih]

/-- **Loading a document that unfolds to a tree is loading the tree.** -/
theorem loadFromYaml_of_unfolds (hemit : ∀ node t, doc.Unfolds node t → emit node = emitTree t)
    (h : doc.Unfolds doc.root t) (datas : ConfigVarMap V) :
    ∃ fuel, doc.loadFromYaml emit fromString fuel datas
      = some (YServer.loadFromYaml emitTree fromString datas t) := by
  obtain ⟨fuel, htree⟩ := h
  obtain ⟨output, houtput, hshows⟩ := listAllMember_of_tree htree []
  refine ⟨fuel, ?_⟩
  rw [loadFromYaml, houtput, Option.map_some, foldl_loadNode_of_shows hemit hshows]
  rfl

end Load

end Unfolds

end Document

/-- **The walk over a document comes to an end, and loading it too, exactly when no map that is
reached by keys of the walk's characters is inside itself by such keys.** -/
theorem configWalk_ends_iff {V : Type} (doc : Document) (emit : Fin doc.size → Bytes)
    (fromString : V → Bytes → V) (datas : ConfigVarMap V) :
    ((∃ fuel, (doc.listAllMember fuel [] doc.root).isSome) ∧
        ∃ fuel, (doc.loadFromYaml emit fromString fuel datas).isSome)
      ↔ doc.Acyclic := by
  simp only [Document.loadFromYaml, Option.isSome_map, and_self_iff]
  exact Document.exists_listAllMember_iff

/-- `a: &x {b: *x}` -/
def selfContaining : Document where
  size := 4
  content := ![.map [(1, 2)], .scalar (ascii "a"), .map [(3, 2)], .scalar (ascii "b")]
  root := 0

/-- The walk goes from `a` to `a.b`, `a.b.b` and on. -/
theorem not_ends_selfContaining :
    ¬ ∃ fuel, (selfContaining.listAllMember fuel [] selfContaining.root).isSome := by
  rw [Document.exists_listAllMember_iff]
  intro h
  have hroot : selfContaining.Below (2 : Fin 4) (0 : Fin 4) := ⟨(1 : Fin 4), by decide, by decide⟩
  have hloop : selfContaining.Below (2 : Fin 4) (2 : Fin 4) := ⟨(3 : Fin 4), by decide, by decide⟩
  exact h _ (ReflTransGen.single hroot) (TransGen.single hloop)

end YServer
