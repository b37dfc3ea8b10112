import YServer.Config.FromString
import YServer.Config.LoadFromYaml
import YServer.Machinery.Settle

/-!
# Config/Reload — loading the same document twice

A load writes to a variable once for every node whose dotted path is its name, in the order of the
walk, and two nodes can have one path:

    a.b: 1                ┌─ "a.b" ◂── 1
    a:           ──▸      │
      b: 2                └─ "a.b" ◂── 2

The second load then takes the variable from 2 to 1 and back and its listeners hear of both.
Loading again is silent exactly when the nodes of each variable with a listener give it values that
are equal to each other (`reload_iff`).
-/

namespace YServer

open Machinery Yaml

/-- A registered `ConfigVar<T, FromStr>`: the type with its `==`, the conversion and the variable;
none of its listeners throws. -/
structure RegisteredVar where
  T : Type
  [beq : BEq T]
  [refl : ReflBEq T]
  fromStr : Bytes → Option T
  var : ConfigVar T

attribute [instance] RegisteredVar.beq RegisteredVar.refl

namespace RegisteredVar

/-- `ConfigVarBase::fromString`. -/
def fromString (r : RegisteredVar) (val : Bytes) : RegisteredVar :=
  { r with var := (r.var.fromString r.fromStr (fun _ _ _ => false) val).2 }

/-- The values a list of texts converts to. -/
def values (r : RegisteredVar) (texts : List Bytes) : List r.T := texts.filterMap r.fromStr

/-- The values are equal to each other. -/
def Agree (r : RegisteredVar) (texts : List Bytes) : Prop :=
  ∀ v ∈ r.values texts, ∀ w ∈ r.values texts, v == w

end RegisteredVar

/-- The texts loading a document gives a variable. -/
def givenTexts (emit : Node → Bytes) (root : Node) (name : Bytes) : List Bytes :=
  ((nodes root).filter fun n =>
      OnlyOf prefixChars (dotted n.1) ∧ (dotted n.1).map tolower = name).map
    fun n => nodeText emit n.2

/-- **Loading the document once more changes no value and calls no listener.** -/
def ReloadsSilently (emit : Node → Bytes) (datas : ConfigVarMap RegisteredVar) (root : Node) :
    Prop :=
  loadFromYaml emit RegisteredVar.fromString
      (loadFromYaml emit RegisteredVar.fromString datas root) root
    = loadFromYaml emit RegisteredVar.fromString datas root

/-! ## What a list of values does to a variable -/

namespace ConfigVar

variable {T : Type*} [BEq T] {var : ConfigVar T}

/-- The variable after `setValue` of one value after the other. -/
def wrote (var : ConfigVar T) (vs : List T) : ConfigVar T :=
  { var with
    value := settle var.value vs
    received := fun l => var.received l ++ if l ∈ var.cbs then changes var.value vs else [] }

theorem wrote_nil : var.wrote [] = var := by
  simp [wrote, changes]

theorem received_wrote_of_mem {l : ℕ} (hl : l ∈ var.cbs) (vs : List T) :
    (var.wrote vs).received l = var.received l ++ changes var.value vs :=
  congrArg (var.received l ++ ·) (if_pos hl)

theorem received_wrote_of_notMem {l : ℕ} (hl : l ∉ var.cbs) (vs : List T) :
    (var.wrote vs).received l = var.received l :=
  (congrArg (var.received l ++ ·) (if_neg hl)).trans (List.append_nil _)

theorem wrote_append (vs ws : List T) : var.wrote (vs ++ ws) = (var.wrote vs).wrote ws := by
  have hreceived : ∀ l, (var.wrote (vs ++ ws)).received l
      = ((var.wrote vs).wrote ws).received l := by
    intro l
    by_cases hl : l ∈ var.cbs
    · have hl' : l ∈ (var.wrote vs).cbs := hl
      rw [received_wrote_of_mem hl, received_wrote_of_mem hl', received_wrote_of_mem hl,
        changes_append, List.append_assoc]
      rfl
    · have hl' : l ∉ (var.wrote vs).cbs := hl
      rw [received_wrote_of_notMem hl, received_wrote_of_notMem hl', received_wrote_of_notMem hl]
  exact (ConfigVar.mk.injEq ..).mpr ⟨settle_append .., rfl, funext hreceived, rfl⟩

theorem setValue_eq_wrote (v : T) :
    (setValue (fun _ _ _ => false) var v).2 = var.wrote [v] := by
  by_cases hv : v == var.value
  · rw [setValue, if_pos hv]
    simp [wrote, changes, write_of_beq hv, hv]
  · rw [setValue_of_forall_not hv fun _ _ => Bool.false_ne_true]
    simp [told, wrote, changes, write_of_not_beq hv, hv]

/-- **A variable is left alone exactly when its value stays and, if there is a listener, nothing
changes on the way.** -/
theorem wrote_eq_self_iff {vs : List T} : var.wrote vs = var
    ↔ settle var.value vs = var.value ∧ (var.cbs.Nonempty → changes var.value vs = []) := by
  obtain ⟨value, cbs, received, setting⟩ := var
  simp only [wrote, mk.injEq, true_and, and_true]
  refine and_congr_right fun _ => ⟨fun h hne => ?_, fun h => funext fun l => ?_⟩
  · obtain ⟨l, hl⟩ := hne
    have hnew := List.append_right_eq_self.mp (congrFun h l)
    rwa [if_pos hl] at hnew
  · split_ifs with hl
    · rw [h ⟨l, hl⟩, List.append_nil]
    · exact List.append_nil _

end ConfigVar

namespace RegisteredVar

variable {r : RegisteredVar}

/-- What a list of texts does to a registered variable. -/
theorem foldl_fromString (texts : List Bytes) : texts.foldl fromString r
    = { r with var := r.var.wrote (r.values texts) } := by
  induction texts generalizing r with
  | nil => exact (congrArg (fun var => { r with var := var }) ConfigVar.wrote_nil).symm
  | cons text texts ih =>
    rw [List.foldl_cons, ih, fromString, values, values, ConfigVar.fromString]
    cases hval : r.fromStr text with
    | none => rw [List.filterMap_cons_none hval]
    | some v =>
      rw [List.filterMap_cons_some hval]
      simp only [ConfigVar.setValue_eq_wrote, ← ConfigVar.wrote_append, List.singleton_append]

/-- The texts once more leave the variable alone exactly when their values leave its value alone
and, if there is a listener, change nothing on the way. -/
theorem foldl_fromString_twice_iff (texts : List Bytes) :
    texts.foldl fromString (texts.foldl fromString r) = texts.foldl fromString r
      ↔ settle (settle r.var.value (r.values texts)) (r.values texts)
          = settle r.var.value (r.values texts) ∧
        (r.var.cbs.Nonempty →
          changes (settle r.var.value (r.values texts)) (r.values texts) = []) := by
  rw [foldl_fromString, foldl_fromString]
  simp only [mk.injEq, heq_eq_eq, true_and]
  exact ConfigVar.wrote_eq_self_iff

/-- Values equal to each other leave it alone… -/
theorem twice_of_agree {texts : List Bytes} (h : r.Agree texts) :
    texts.foldl fromString (texts.foldl fromString r) = texts.foldl fromString r := by
  have hall := beq_settle_of_pairwise h r.var.value
  exact (foldl_fromString_twice_iff texts).mpr
    ⟨settle_eq_self hall, fun _ => changes_eq_nil_iff.mpr hall⟩

/-- …and if there is a listener, no others do. -/
theorem twice_iff_agree [EquivBEq r.T] (texts : List Bytes) :
    texts.foldl fromString (texts.foldl fromString r) = texts.foldl fromString r
      ↔ (r.var.cbs.Nonempty → r.Agree texts) := by
  rw [foldl_fromString_twice_iff, settle_settle, and_iff_right rfl]
  exact imp_congr_right fun _ => changes_settle_eq_nil_iff

end RegisteredVar

/-! ## What a document does to the registry -/

/-- The nodes without a path change nothing, so no variable of the empty name is ever written. -/
theorem loadFromYaml_nil {V : Type*} {emit : Node → Bytes} {fromString : V → Bytes → V}
    (datas : ConfigVarMap V) (root : Node) :
    loadFromYaml emit fromString datas root [] = datas [] := by
  have hfold : ∀ output : List (Bytes × Node),
      output.foldl (loadNode emit fromString) datas [] = datas [] := by
    intro output
    induction output using List.reverseRecOn with
    | nil => rfl
    | append_singleton output i ih =>
      rw [List.foldl_concat, loadNode]
      split_ifs with hi
      · exact ih
      cases hvar : output.foldl (loadNode emit fromString) datas (i.1.map tolower) with
      | none => simpa only [hvar] using ih
      | some var =>
        simp only [hvar]
        rw [Function.update_of_ne fun h => hi (List.map_eq_nil_iff.mp h.symm), ih]
  exact hfold _

/-- A reload is silent if it leaves every variable alone. -/
theorem reloadsSilently_iff (emit : Node → Bytes) (datas : ConfigVarMap RegisteredVar)
    (root : Node) : ReloadsSilently emit datas root
      ↔ ∀ name r, name ≠ [] → datas name = some r →
        (givenTexts emit root name).foldl RegisteredVar.fromString
            ((givenTexts emit root name).foldl RegisteredVar.fromString r)
          = (givenTexts emit root name).foldl RegisteredVar.fromString r := by
  rw [ReloadsSilently, funext_iff]
  refine forall_congr' fun name => ?_
  by_cases hname : name = []
  · subst hname
    rw [loadFromYaml_nil, loadFromYaml_nil]
    exact iff_of_true rfl fun r h => absurd rfl h
  · rw [loadFromYaml_apply _ _ hname, loadFromYaml_apply _ _ hname, ← givenTexts]
    cases hvar : datas name with
    | none => exact iff_of_true rfl fun r _ h => nomatch h
    | some r => simp [hname]

/-- **Loading a document again is silent if the values its nodes give a variable are equal to each
other; and where `==` is an equivalence, exactly if they are so for every variable that has a
listener.** -/
theorem reload_iff (emit : Node → Bytes) (datas : ConfigVarMap RegisteredVar) (root : Node) :
    ((∀ name r, name ≠ [] → datas name = some r → r.Agree (givenTexts emit root name)) →
        ReloadsSilently emit datas root) ∧
      ((∀ name r, datas name = some r → EquivBEq r.T) →
        (ReloadsSilently emit datas root ↔ ∀ name r, name ≠ [] → datas name = some r →
          r.var.cbs.Nonempty → r.Agree (givenTexts emit root name))) := by
  simp only [reloadsSilently_iff]
  refine ⟨fun h name r hname hvar => ?_, fun hequiv => ?_⟩
  · exact RegisteredVar.twice_of_agree (h name r hname hvar)
  refine forall₄_congr fun name r hname hvar => ?_
  have := hequiv name r hvar
  exact RegisteredVar.twice_iff_agree _

/-- A string with one listener, registered as `tcp.port`. -/
def tcpPort : RegisteredVar where
  T := Bytes
  fromStr := some
  var := ConfigVar.new [] {1}

/-- `{tcp: {port: 80}}` -/
def onePort : Node :=
  .map [(.scalar (ascii "tcp"), .map [(.scalar (ascii "port"), .scalar (ascii "80"))])]

theorem registered_tcpPort {name : Bytes} {r : RegisteredVar}
    (h : registered [(ascii "tcp.port", tcpPort)] name = some r) :
    name = ascii "tcp.port" ∧ r = tcpPort := by
  have hregistered : registered [(ascii "tcp.port", tcpPort)]
      = Function.update (fun _ => none) (ascii "tcp.port") (some tcpPort) := rfl
  rw [hregistered] at h
  by_cases hname : name = ascii "tcp.port"
  · rw [hname, Function.update_self] at h
    exact ⟨hname, (Option.some.inj h).symm⟩
  · rw [Function.update_of_ne hname] at h
    cases h

theorem reloadsSilently_onePort :
    ReloadsSilently (fun _ => []) (registered [(ascii "tcp.port", tcpPort)]) onePort := by
  refine ((reload_iff _ _ _).2 fun name r h => ?_).mpr fun name r _ h _ => ?_
  · obtain ⟨-, rfl⟩ := registered_tcpPort h
    exact inferInstanceAs (EquivBEq Bytes)
  · obtain ⟨rfl, rfl⟩ := registered_tcpPort h
    have htexts : givenTexts (fun _ => []) onePort (ascii "tcp.port") = [ascii "80"] := by
      decide +kernel
    rw [htexts]
    intro v hv w hw
    rw [List.mem_singleton.mp hv, List.mem_singleton.mp hw]
    exact BEq.refl _

/-- `{tcp.port: 80, tcp: {port: 81}}` -/
def twoPorts : Node :=
  .map [(.scalar (ascii "tcp.port"), .scalar (ascii "80")),
    (.scalar (ascii "tcp"), .map [(.scalar (ascii "port"), .scalar (ascii "81"))])]

/-- The listener hears of 80 and of 81 again. -/
theorem not_reloadsSilently_twoPorts :
    ¬ ReloadsSilently (fun _ => []) (registered [(ascii "tcp.port", tcpPort)]) twoPorts := by
  intro h
  have htwice := (reloadsSilently_iff ..).mp h (ascii "tcp.port") tcpPort (by decide) rfl
  have : EquivBEq tcpPort.T := inferInstanceAs (EquivBEq Bytes)
  have hagree := (RegisteredVar.twice_iff_agree _).mp htwice ⟨1, by decide⟩
  have hmem : ∀ text ∈ [ascii "80", ascii "81"],
      text ∈ givenTexts (fun _ => []) twoPorts (ascii "tcp.port") := by decide +kernel
  have heq : ascii "80" == ascii "81" :=
    hagree _ (List.mem_filterMap.mpr ⟨_, hmem _ (by decide), rfl⟩)
      _ (List.mem_filterMap.mpr ⟨_, hmem _ (by decide), rfl⟩)
  exact absurd heq (by decide)

end YServer
