import YServer.Config.ListAllFiles
import YServer.Config.Reload

/-!
# Config/LoadFromConfigDir — loading all files of a directory

Each file is loaded in a `try` of its own: a file that is no YAML changes nothing, and an exception
that gets out of `fromString` leaves what the file has set by then and skips the rest of it:

    a.yml     n₁ n₂ n₃
    b.yml     ✗ LoadFile
    c.yml     n₄ n₅ ✗ ┄┄ n₆
    d.yml     n₇                 ──▸   n₁ n₂ n₃ n₄ n₅ n₇

So the directory is loaded like one document, of the nodes that were reached
(`loadFromConfigDir_eq`).  Where nothing is thrown a variable has the last of its values in the
order of the files, and loading the directory again is silent exactly when all its values, over all
the files, are equal to each other (`loadRegisteredDir_exact`).
-/

namespace YServer

open Machinery Yaml

/-! ## Config.cpp -/

section Load

variable {V : Type*} (emit : Node → Bytes) (fromString : V → Bytes → Bool × V)

/-- One turn of the loop of `LoadFromYaml`, and whether it came to its end: `fromString` says so
with the variable it leaves. -/
def tryNode (datas : ConfigVarMap V) (i : Bytes × Node) : Bool × ConfigVarMap V :=
  if i.1 = [] then (true, datas)
  else
    let key := i.1.map tolower
    match datas key with
    | none => (true, datas)
    | some var =>
      let (returns, var) := fromString var (nodeText emit i.2)
      (returns, Function.update datas key (some var))

/-- The loop, which an exception leaves. -/
def tryNodes : ConfigVarMap V → List (Bytes × Node) → Bool × ConfigVarMap V
  | datas, [] => (true, datas)
  | datas, i :: nodes =>
    match tryNode emit fromString datas i with
    | (false, datas) => (false, datas)
    | (true, datas) => tryNodes datas nodes

/-- The body of the loop of `LoadFromConfigDir`: `YAML::LoadFile`, then `LoadFromYaml`; whatever
they throw is caught. -/
def loadConfigFile (loadFile : Bytes → Option Node) (datas : ConfigVarMap V) (file : Bytes) :
    ConfigVarMap V :=
  match loadFile file with
  | none => datas
  | some root => (tryNodes emit fromString datas (listAllMember [] root)).2

/-- `Config::LoadFromConfigDir`; it does nothing with `force`. -/
def loadFromConfigDir (fs : FileSystem) (loadFile : Bytes → Option Node) (datas : ConfigVarMap V)
    (path : Bytes) : ConfigVarMap V :=
  (listAllFiles fs [] path (ascii ".yml")).foldl (loadConfigFile emit fromString loadFile) datas

end Load

/-- The documents of the files that can be loaded, in the order of the files. -/
def documents (fs : FileSystem) (loadFile : Bytes → Option Node) (path : Bytes) : List Node :=
  (listAllFiles fs [] path (ascii ".yml")).filterMap loadFile

/-! ## What is reached -/

section Reached

variable {V : Type*} {emit : Node → Bytes} {fromString : V → Bytes → Bool × V}

variable (emit fromString) in
theorem tryNode_snd (datas : ConfigVarMap V) (i : Bytes × Node) :
    (tryNode emit fromString datas i).2
      = loadNode emit (fun var val => (fromString var val).2) datas i := by
  rw [tryNode, loadNode]
  split_ifs
  · rfl
  · cases hvar : datas (i.1.map tolower) with
    | none => simp only [hvar]
    | some var => simp only [hvar]

theorem tryNode_fst (h : ∀ var val, (fromString var val).1) (datas : ConfigVarMap V)
    (i : Bytes × Node) : (tryNode emit fromString datas i).1 := by
  rw [tryNode]
  split_ifs
  · rfl
  · cases hvar : datas (i.1.map tolower) with
    | none => simp only [hvar]
    | some var =>
      simp only [hvar]
      exact h _ _

variable (emit fromString) in
/-- The variables after some nodes. -/
def loadNodes (datas : ConfigVarMap V) (nodes : List (Bytes × Node)) : ConfigVarMap V :=
  nodes.foldl (loadNode emit fun var val => (fromString var val).2) datas

theorem loadNodes_append (datas : ConfigVarMap V) (nodes nodes' : List (Bytes × Node)) :
    loadNodes emit fromString datas (nodes ++ nodes')
      = loadNodes emit fromString (loadNodes emit fromString datas nodes) nodes' :=
  List.foldl_append

variable (emit fromString) in
/-- **The nodes of a document that are reached** from a state: no variable has thrown before the
last of them, and if they are not all, the last one's has. -/
structure Reached (datas : ConfigVarMap V) (output nodes : List (Bytes × Node)) : Prop where
  isPrefix : output <+: nodes
  goesOn : ∀ before i, before ++ [i] <+: output → before ++ [i] ≠ output →
    (tryNode emit fromString (loadNodes emit fromString datas before) i).1 = true
  stops : output = nodes ∨ ∃ before i, output = before ++ [i] ∧
    (tryNode emit fromString (loadNodes emit fromString datas before) i).1 = false

variable (emit fromString) in
/-- …and of several documents, each from the state the ones before it have left. -/
inductive ReachedAll : ConfigVarMap V → List (List (Bytes × Node)) → List Node → Prop
  | nil (datas : ConfigVarMap V) : ReachedAll datas [] []
  | cons {datas : ConfigVarMap V} {output : List (Bytes × Node)} {root : Node}
      {outputs : List (List (Bytes × Node))} {roots : List Node} :
    Reached emit fromString datas output (listAllMember [] root) →
    ReachedAll (loadNodes emit fromString datas output) outputs roots →
    ReachedAll datas (output :: outputs) (root :: roots)

/-- Where nothing is thrown they are all. -/
theorem Reached.eq {datas : ConfigVarMap V} {output nodes : List (Bytes × Node)}
    (hreached : Reached emit fromString datas output nodes)
    (h : ∀ var val, (fromString var val).1) : output = nodes := by
  refine hreached.stops.resolve_right ?_
  rintro ⟨before, i, -, hthrows⟩
  cases (tryNode_fst h _ i).symm.trans hthrows

theorem ReachedAll.eq {datas : ConfigVarMap V} {outputs : List (List (Bytes × Node))}
    {roots : List Node} (hreached : ReachedAll emit fromString datas outputs roots)
    (h : ∀ var val, (fromString var val).1) : outputs = roots.map (listAllMember []) := by
  induction hreached with
  | nil datas => rfl
  | cons hfirst hrest ih => rw [ih, hfirst.eq h, List.map_cons]

/-- A node that does not throw is reached, and so is what is reached from the state after it. -/
theorem Reached.cons {datas : ConfigVarMap V} {i : Bytes × Node}
    {output nodes : List (Bytes × Node)}
    (hreturns : (tryNode emit fromString datas i).1 = true)
    (hreached : Reached emit fromString (loadNodes emit fromString datas [i]) output nodes) :
    Reached emit fromString datas (i :: output) (i :: nodes) where
  isPrefix := (List.prefix_cons_inj i).mpr hreached.isPrefix
  goesOn before j hbefore hne := by
    cases before with
    | nil =>
      obtain ⟨rfl, -⟩ := List.cons_prefix_cons.mp hbefore
      exact hreturns
    | cons k before =>
      obtain ⟨rfl, hrest⟩ := List.cons_prefix_cons.mp hbefore
      exact hreached.goesOn before j hrest fun heq => hne (congrArg (k :: ·) heq)
  stops := by
    refine hreached.stops.imp (congrArg (i :: ·)) ?_
    rintro ⟨before, j, rfl, hthrows⟩
    exact ⟨i :: before, j, rfl, hthrows⟩

variable (emit fromString) in
/-- **A document is loaded up to the node whose variable throws** — by induction on the nodes. -/
theorem tryNodes_eq (nodes : List (Bytes × Node)) : ∀ datas : ConfigVarMap V, ∃ output,
    Reached emit fromString datas output nodes ∧
      (tryNodes emit fromString datas nodes).2 = loadNodes emit fromString datas output := by
  induction nodes with
  | nil =>
    refine fun datas => ⟨[], ⟨List.prefix_rfl, fun before i hbefore _ => ?_, Or.inl rfl⟩, rfl⟩
    exact absurd (List.prefix_nil.mp hbefore) (List.concat_ne_nil _ _)
  | cons i nodes ih =>
    intro datas
    have hsnd : (tryNode emit fromString datas i).2 = loadNodes emit fromString datas [i] :=
      tryNode_snd emit fromString datas i
    rw [tryNodes]
    cases hnode : tryNode emit fromString datas i with
    | mk returns datas' =>
      have hfst : (tryNode emit fromString datas i).1 = returns := congrArg Prod.fst hnode
      rw [hnode] at hsnd
      obtain rfl : datas' = loadNodes emit fromString datas [i] := hsnd
      cases returns with
      | false =>
        refine ⟨[i], ⟨?_, fun before j hbefore hne => ?_, Or.inr ⟨[], i, rfl, hfst⟩⟩, rfl⟩
        · exact (List.prefix_cons_inj i).mpr List.nil_prefix
        · -- nothing comes before the only one
          cases before with
          | nil => exact absurd (hbefore.eq_of_length rfl) hne
          | cons k before =>
            have hlength := hbefore.length_le
            simp at hlength
      | true =>
        obtain ⟨output, hreached, heq⟩ := ih (loadNodes emit fromString datas [i])
        refine ⟨i :: output, hreached.cons hfst, heq.trans ?_⟩
        rw [← loadNodes_append, List.singleton_append]

/-- The files one after the other. -/
theorem foldl_loadConfigFile_eq (loadFile : Bytes → Option Node) (files : List Bytes) :
    ∀ datas : ConfigVarMap V, ∃ outputs,
      ReachedAll emit fromString datas outputs (files.filterMap loadFile) ∧
      files.foldl (loadConfigFile emit fromString loadFile) datas
        = loadNodes emit fromString datas outputs.flatten := by
  induction files with
  | nil => exact fun datas => ⟨[], .nil datas, rfl⟩
  | cons file files ih =>
    intro datas
    rw [List.foldl_cons]
    cases hfile : loadFile file with
    | none =>
      rw [List.filterMap_cons_none hfile, loadConfigFile, hfile]
      exact ih datas
    | some root =>
      rw [List.filterMap_cons_some hfile, loadConfigFile, hfile]
      obtain ⟨output, hreached, houtput⟩ :=
        tryNodes_eq emit fromString (listAllMember [] root) datas
      obtain ⟨outputs, houtputs, heq⟩ := ih (loadNodes emit fromString datas output)
      refine ⟨output :: outputs, .cons hreached houtputs, ?_⟩
      rw [List.flatten_cons, loadNodes_append, ← heq]
      exact congrArg (files.foldl _) houtput

/-- **Loading a directory is loading the nodes that are reached**, of one document after the
other: all nodes of a document, or those up to the first one whose variable throws what `fromString`
does not catch; the documents after it all the same, and nothing of a file that cannot be loaded. -/
theorem loadFromConfigDir_eq (emit : Node → Bytes) (fromString : V → Bytes → Bool × V)
    (fs : FileSystem) (loadFile : Bytes → Option Node) (datas : ConfigVarMap V) (path : Bytes) :
    ∃ outputs, ReachedAll emit fromString datas outputs (documents fs loadFile path) ∧
      loadFromConfigDir emit fromString fs loadFile datas path
        = loadNodes emit fromString datas outputs.flatten :=
  foldl_loadConfigFile_eq loadFile _ datas

end Reached

/-! ## Variables whose listeners throw nothing -/

/-- The texts a directory gives a variable, in the order of the files. -/
def dirTexts (emit : Node → Bytes) (fs : FileSystem) (loadFile : Bytes → Option Node)
    (path name : Bytes) : List Bytes :=
  (documents fs loadFile path).flatMap fun root => givenTexts emit root name

section Registered

variable (emit : Node → Bytes) (fs : FileSystem) (loadFile : Bytes → Option Node) (path : Bytes)

/-- `Config::LoadFromConfigDir` on variables whose listeners throw nothing. -/
def loadRegisteredDir (datas : ConfigVarMap RegisteredVar) : ConfigVarMap RegisteredVar :=
  loadFromConfigDir emit (fun r val => (true, r.fromString val)) fs loadFile datas path

variable {emit fs loadFile path}

/-- One document after the other… -/
theorem loadRegisteredDir_eq (datas : ConfigVarMap RegisteredVar) :
    loadRegisteredDir emit fs loadFile path datas
      = (documents fs loadFile path).foldl (loadFromYaml emit RegisteredVar.fromString) datas := by
  obtain ⟨outputs, houtputs, heq⟩ := loadFromConfigDir_eq emit
    (fun (r : RegisteredVar) val => (true, r.fromString val)) fs loadFile datas path
  rw [loadRegisteredDir, heq, houtputs.eq fun _ _ => rfl, ← List.flatMap_def, loadNodes,
    List.foldl_flatMap]
  rfl

/-- …gives a variable the texts of one after the other. -/
theorem foldl_loadFromYaml_apply (roots : List Node) (datas : ConfigVarMap RegisteredVar)
    {name : Bytes} (hname : name ≠ []) :
    roots.foldl (loadFromYaml emit RegisteredVar.fromString) datas name
      = (datas name).map fun r =>
        (roots.flatMap fun root => givenTexts emit root name).foldl RegisteredVar.fromString r := by
  induction roots generalizing datas with
  | nil => simp
  | cons root roots ih =>
    rw [List.foldl_cons, ih, loadFromYaml_apply _ _ hname, Option.map_map]
    refine congrArg (Option.map · (datas name)) (funext fun r => ?_)
    rw [List.flatMap_cons, List.foldl_append]
    rfl

theorem loadRegisteredDir_apply (datas : ConfigVarMap RegisteredVar) {name : Bytes}
    (hname : name ≠ []) : loadRegisteredDir emit fs loadFile path datas name
      = (datas name).map fun r =>
        (dirTexts emit fs loadFile path name).foldl RegisteredVar.fromString r := by
  rw [loadRegisteredDir_eq, foldl_loadFromYaml_apply _ _ hname]
  rfl

theorem loadRegisteredDir_nil (datas : ConfigVarMap RegisteredVar) :
    loadRegisteredDir emit fs loadFile path datas [] = datas [] := by
  rw [loadRegisteredDir_eq]
  induction documents fs loadFile path using List.reverseRecOn with
  | nil => rfl
  | append_singleton roots root ih => rw [List.foldl_concat, loadFromYaml_nil, ih]

/-- Loading twice leaves every variable as loading once if it is given its texts twice to no
effect. -/
theorem loadRegisteredDir_twice_iff (datas : ConfigVarMap RegisteredVar) :
    loadRegisteredDir emit fs loadFile path (loadRegisteredDir emit fs loadFile path datas)
        = loadRegisteredDir emit fs loadFile path datas
      ↔ ∀ name r, name ≠ [] → datas name = some r →
        (dirTexts emit fs loadFile path name).foldl RegisteredVar.fromString
            ((dirTexts emit fs loadFile path name).foldl RegisteredVar.fromString r)
          = (dirTexts emit fs loadFile path name).foldl RegisteredVar.fromString r := by
  rw [funext_iff]
  refine forall_congr' fun name => ?_
  by_cases hname : name = []
  · subst hname
    rw [loadRegisteredDir_nil]
    exact iff_of_true rfl fun r h => absurd rfl h
  · rw [loadRegisteredDir_apply _ hname, loadRegisteredDir_apply _ hname]
    cases hvar : datas name with
    | none => exact iff_of_true rfl fun r _ h => by cases h
    | some r => simp [hname]

/-- **After loading a directory a variable has the last of its values**, over all files that can be
loaded, in their order, and its listeners have heard of each change on the way; and where `==` is
equality loading the directory again is silent exactly when the values of each variable that has a
listener are equal to each other. -/
theorem loadRegisteredDir_exact (emit : Node → Bytes) (fs : FileSystem)
    (loadFile : Bytes → Option Node) (path : Bytes) (datas : ConfigVarMap RegisteredVar)
    (hlawful : ∀ name r, datas name = some r → LawfulBEq r.T) :
    (∀ name r, name ≠ [] → datas name = some r →
        let values := r.values (dirTexts emit fs loadFile path name)
        loadRegisteredDir emit fs loadFile path datas name = some { r with var := { r.var with
          value := values.getLast?.getD r.var.value
          received := fun l =>
            r.var.received l ++ if l ∈ r.var.cbs then changes r.var.value values else [] } }) ∧
      (loadRegisteredDir emit fs loadFile path (loadRegisteredDir emit fs loadFile path datas)
          = loadRegisteredDir emit fs loadFile path datas
        ↔ ∀ name r, name ≠ [] → datas name = some r → r.var.cbs.Nonempty →
          r.Agree (dirTexts emit fs loadFile path name)) := by
  constructor
  · intro name r hname hvar
    have := hlawful name r hvar
    rw [loadRegisteredDir_apply _ hname, hvar, Option.map_some, RegisteredVar.foldl_fromString,
      ConfigVar.wrote, settle_eq_getLast?]
  · rw [loadRegisteredDir_twice_iff]
    refine forall₄_congr fun name r hname hvar => ?_
    have := hlawful name r hvar
    exact RegisteredVar.twice_iff_agree _

end Registered

/-- Both files of `conf/` are `{tcp: {port: 80}}`. -/
def confFile (_ : Bytes) : Option Node := some onePort

theorem loadRegisteredDir_conf :
    loadRegisteredDir (fun _ => []) conf confFile (ascii "conf")
        (loadRegisteredDir (fun _ => []) conf confFile (ascii "conf")
          (registered [(ascii "tcp.port", tcpPort)]))
      = loadRegisteredDir (fun _ => []) conf confFile (ascii "conf")
          (registered [(ascii "tcp.port", tcpPort)]) := by
  refine (loadRegisteredDir_exact _ _ _ _ _ fun name r h => ?_).2.mpr fun name r _ h _ => ?_
  · obtain ⟨-, rfl⟩ := registered_tcpPort h
    exact inferInstanceAs (LawfulBEq Bytes)
  · obtain ⟨rfl, rfl⟩ := registered_tcpPort h
    have htexts : dirTexts (fun _ => []) conf confFile (ascii "conf") (ascii "tcp.port")
        = [ascii "80", ascii "80"] := by
      decide +kernel
    rw [htexts]
    intro v hv w hw
    have hvalue : ∀ v ∈ tcpPort.values [ascii "80", ascii "80"], v = ascii "80" := by
      intro v hv
      obtain ⟨text, htext, hv⟩ := List.mem_filterMap.mp hv
      obtain rfl := Option.some.inj hv
      rcases List.mem_pair.mp htext with heq | heq <;> exact heq
    rw [hvalue v hv, hvalue w hw]
    exact BEq.refl _

end YServer
