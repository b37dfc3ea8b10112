import YServer.Config.FromString
import YServer.Config.LoadFromYaml

/-!
# Config/Registry — one object for each name

`Config::Lookup` hands out pointers to the variables it makes, and `LoadFromYaml` writes to the
variables its own lookups find:

    Lookup<T>(name) ──▸ GetDatas()[name] ──▸ ConfigVar<T> ◂── fromString ── LoadFromYaml
           ▲                                      ▲
           └── key: name                          └── m_name: tolower(name)

A key is only ever added, together with an object of its name, so whoever has asked for a name with
its type has the one object that loading writes to (`registry_appendOnly`).  What the values are
follows from the registry that holds the variables themselves, which this one refines
(`view_loadFromYaml`).
-/

namespace YServer

open Yaml

variable {ι : Type} {V : ι → Type}

/-- A `ConfigVar<T>`, made for the type `type`. -/
structure VarObject (V : ι → Type) where
  type : ι
  mName : Bytes
  mDescription : Bytes
  var : ConfigVar (V type)

namespace VarObject

/-- `new ConfigVar<T>(name, description, default_value)`. -/
def new (type : ι) (name description : Bytes) (defaultValue : V type) : VarObject V where
  type := type
  mName := name.map tolower
  mDescription := description
  var := ConfigVar.new defaultValue ∅

def getName (object : VarObject V) : Bytes := object.mName

/-- `ConfigVarBase::fromString`; `fromStr` is the conversion to a type, and `throws` says which of
its listeners throw. -/
def fromString [∀ type, BEq (V type)] (fromStr : ∀ type, Bytes → Option (V type))
    (throws : ∀ type, ℕ → V type → V type → Bool) (object : VarObject V) (val : Bytes) :
    VarObject V :=
  { object with var := (object.var.fromString (fromStr object.type) (throws object.type) val).2 }

end VarObject

/-- `GetDatas()`, and the variables its pointers point to. -/
structure Registry (V : ι → Type) where
  datas : ConfigVarMap ℕ
  heap : ℕ → Option (VarObject V)
  next : ℕ

namespace Registry

def empty : Registry V := ⟨fun _ => none, fun _ => none, 0⟩

variable (s : Registry V)

/-- What a `dynamic_pointer_cast` tests. -/
def typeAt (p : ℕ) : Option ι := (s.heap p).map VarObject.type

/-- A variable is made and registered. -/
def create (name : Bytes) (object : VarObject V) : Registry V where
  datas := Function.update s.datas name (some s.next)
  heap := Function.update s.heap s.next (some object)
  next := s.next + 1

theorem datas_create (name : Bytes) (object : VarObject V) :
    (s.create name object).datas = Function.update s.datas name (some s.next) := rfl

theorem heap_create (name : Bytes) (object : VarObject V) :
    (s.create name object).heap = Function.update s.heap s.next (some object) := rfl

section Lookup

variable [DecidableEq ι]

/-- `Config::Lookup(name, description, default_value)`: a pointer or null, or the exception
`std::invalid_argument(name)`. -/
def lookup (type : ι) (name description : Bytes) (defaultValue : V type) :
    Registry V × Except Bytes (Option ℕ) :=
  match s.datas name with
  | some p => if s.typeAt p = some type then (s, .ok (some p)) else (s, .ok none)
  | none =>
    if OnlyOf nameChars name then
      (s.create name (.new type name description defaultValue), .ok (some s.next))
    else (s, .error name)

/-- `Config::Lookup(name)`. -/
def lookupExisting (type : ι) (name : Bytes) : Option ℕ :=
  match s.datas name with
  | some p => if s.typeAt p = some type then some p else none
  | none => none

end Lookup

/-- `Config::LookupBase`. -/
def lookupBase (name : Bytes) : Option ℕ := s.datas name

section Load

variable [∀ type, BEq (V type)] (emit : Node → Bytes)
  (fromStr : ∀ type, Bytes → Option (V type)) (throws : ∀ type, ℕ → V type → V type → Bool)

/-- `var->fromString(val)`. -/
def fromString (p : ℕ) (val : Bytes) : Registry V :=
  { s with
    heap := Function.update s.heap p ((s.heap p).map (VarObject.fromString fromStr throws · val)) }

theorem heap_fromString (p : ℕ) (val : Bytes) : (s.fromString fromStr throws p val).heap
    = Function.update s.heap p ((s.heap p).map (VarObject.fromString fromStr throws · val)) := rfl

/-- One turn of the loop of `LoadFromYaml`. -/
def loadNode (i : Bytes × Node) : Registry V :=
  if i.1 = [] then s
  else
    match s.lookupBase (i.1.map tolower) with
    | none => s
    | some var => s.fromString fromStr throws var (nodeText emit i.2)

/-- `Config::LoadFromYaml`. -/
def loadFromYaml (root : Node) : Registry V :=
  (listAllMember [] root).foldl (fun s i => s.loadNode emit fromStr throws i) s

end Load

/-- The variables by their names. -/
def view : ConfigVarMap (VarObject V) := fun name => (s.datas name).bind s.heap

end Registry

/-! ## A program's calls -/

inductive RegistryCall (V : ι → Type)
  | lookup (type : ι) (name description : Bytes) (defaultValue : V type)
  | lookupExisting (type : ι) (name : Bytes)
  | loadFromYaml (root : Node)

/-- The registry, and what the lookups so far have returned. -/
structure RegistryRun (V : ι → Type) where
  registry : Registry V
  answers : List (ι × Bytes × Option ℕ)

namespace RegistryRun

variable [DecidableEq ι] [∀ type, BEq (V type)] (emit : Node → Bytes)
  (fromStr : ∀ type, Bytes → Option (V type)) (throws : ∀ type, ℕ → V type → V type → Bool)

def apply (s : RegistryRun V) : RegistryCall V → RegistryRun V
  | .lookup type name description defaultValue =>
    match s.registry.lookup type name description defaultValue with
    | (registry, .ok p) => ⟨registry, s.answers ++ [(type, name, p)]⟩
    | (registry, .error _) => { s with registry }
  | .lookupExisting type name =>
    { s with answers := s.answers ++ [(type, name, s.registry.lookupExisting type name)] }
  | .loadFromYaml root => { s with registry := s.registry.loadFromYaml emit fromStr throws root }

/-- The state a sequence of calls leads to. -/
def after (calls : List (RegistryCall V)) : RegistryRun V :=
  calls.foldl (apply emit fromStr throws) ⟨.empty, []⟩

end RegistryRun

section Properties

variable [DecidableEq ι]

/-- A lookup throws or returns null. -/
def RegistryCall.Refused (s : Registry V) : RegistryCall V → Prop
  | .lookup type name description defaultValue =>
    ∀ p, (s.lookup type name description defaultValue).2 ≠ .ok (some p)
  | .lookupExisting type name => s.lookupExisting type name = none
  | .loadFromYaml _ => False

/-- **The registry is consistent with itself and with what it has returned.** -/
structure RegistryRun.Consistent (s : RegistryRun V) : Prop where
  admitted : ∀ name p, s.registry.datas name = some p → OnlyOf nameChars name
  named : ∀ name p, s.registry.datas name = some p →
    ∃ object, s.registry.heap p = some object ∧ object.getName = name
  /-- A name has one object, however often it is asked for… -/
  same : ∀ type type' name p p', (type, name, some p) ∈ s.answers →
    (type', name, some p') ∈ s.answers → p = p'
  /-- …and it is the one loading writes to. -/
  live : ∀ type name p, (type, name, some p) ∈ s.answers →
    s.registry.lookupBase name = some p ∧ s.registry.typeAt p = some type
  /-- A lookup of a registered name returns its object, or null for another type. -/
  typed : ∀ name p object, s.registry.datas name = some p → s.registry.heap p = some object →
    ∀ type, (s.registry.lookupExisting type name = if object.type = type then some p else none) ∧
      ∀ description defaultValue, (s.registry.lookup type name description defaultValue).2
        = .ok (if object.type = type then some p else none)

end Properties

/-! ## The registry's invariant -/

/-- An admitted name is its own lower case. -/
theorem map_tolower_of_onlyOf {name : Bytes} (h : OnlyOf nameChars name) :
    name.map tolower = name := by
  have hchars : ∀ c ∈ nameChars, tolower c = c := by decide +kernel
  exact (List.map_congr_left fun c hc => hchars c (h c hc)).trans (List.map_id name)

namespace Registry

/-- **A key is an admitted name, and the name of its object.** -/
structure Sound (s : Registry V) : Prop where
  admitted : ∀ name p, s.datas name = some p → OnlyOf nameChars name
  named : ∀ name p, s.datas name = some p →
    ∃ object, s.heap p = some object ∧ object.getName = name
  fresh : ∀ p, s.next ≤ p → s.heap p = none

/-- What has been registered stays, with its type. -/
structure Extends (s t : Registry V) : Prop where
  keeps : ∀ name p, s.datas name = some p → t.datas name = some p
  typeAt : ∀ p type, s.typeAt p = some type → t.typeAt p = some type

variable {s t u : Registry V}

theorem Extends.refl (s : Registry V) : s.Extends s := ⟨fun _ _ h => h, fun _ _ h => h⟩

theorem Extends.trans (hst : s.Extends t) (htu : t.Extends u) : s.Extends u where
  keeps name p h := htu.keeps name p (hst.keeps name p h)
  typeAt p type h := htu.typeAt p type (hst.typeAt p type h)

/-- An object has one name. -/
theorem Sound.name_unique (h : s.Sound) {name name' : Bytes} {p : ℕ}
    (hname : s.datas name = some p) (hname' : s.datas name' = some p) : name = name' := by
  obtain ⟨object, hobject, rfl⟩ := h.named name p hname
  obtain ⟨object', hobject', rfl⟩ := h.named name' p hname'
  rw [Option.some.inj (hobject.symm.trans hobject')]

theorem Sound.lt_next (h : s.Sound) {name : Bytes} {p : ℕ} (hname : s.datas name = some p) :
    p < s.next := by
  obtain ⟨object, hobject, -⟩ := h.named name p hname
  by_contra hle
  cases hobject.symm.trans (h.fresh p (Nat.not_lt.mp hle))

theorem sound_empty : (empty : Registry V).Sound where
  admitted _ _ h := nomatch h
  named _ _ h := nomatch h
  fresh _ _ := rfl

/-! ### A variable is made -/

theorem Sound.create (h : s.Sound) {name : Bytes} {object : VarObject V}
    (hadmitted : OnlyOf nameChars name) (hname : object.getName = name) :
    (s.create name object).Sound where
  admitted name' p hp := by
    rcases eq_or_ne name' name with rfl | hne
    · exact hadmitted
    · rw [datas_create, Function.update_of_ne hne] at hp
      exact h.admitted name' p hp
  named name' p hp := by
    rw [datas_create] at hp
    rw [heap_create]
    rcases eq_or_ne name' name with rfl | hne
    · rw [Function.update_self, Option.some_inj] at hp
      subst hp
      exact ⟨object, Function.update_self .., hname⟩
    · rw [Function.update_of_ne hne] at hp
      rw [Function.update_of_ne (Nat.ne_of_lt (h.lt_next hp))]
      exact h.named name' p hp
  fresh p hp := by
    have hle : s.next < p := hp
    exact (Function.update_of_ne (Nat.ne_of_gt hle) ..).trans (h.fresh p hle.le)

theorem Sound.extends_create (h : s.Sound) {name : Bytes} (object : VarObject V)
    (hnew : s.datas name = none) : s.Extends (s.create name object) where
  keeps name' p hp := by
    have hne : name' ≠ name := fun heq => by cases hnew.symm.trans (heq ▸ hp)
    exact (Function.update_of_ne hne ..).trans hp
  typeAt p type hp := by
    have hne : p ≠ s.next := fun heq => by
      rw [Registry.typeAt, heq, h.fresh s.next (Nat.le_refl _)] at hp
      cases hp
    rwa [Registry.typeAt, heap_create, Function.update_of_ne hne]

/-! ### A variable is written to -/

section Load

variable [∀ type, BEq (V type)] {emit : Node → Bytes}
  {fromStr : ∀ type, Bytes → Option (V type)} {throws : ∀ type, ℕ → V type → V type → Bool}

/-- Only the value of an object changes. -/
theorem typeAt_fromString (s : Registry V) (p : ℕ) (val : Bytes) (q : ℕ) :
    (s.fromString fromStr throws p val).typeAt q = s.typeAt q := by
  rw [typeAt, heap_fromString]
  rcases eq_or_ne q p with rfl | hne
  · rw [Function.update_self, Option.map_map, typeAt]
    rfl
  · rw [Function.update_of_ne hne, typeAt]

theorem Sound.fromString (h : s.Sound) (p : ℕ) (val : Bytes) :
    (s.fromString fromStr throws p val).Sound where
  admitted := h.admitted
  named name q hq := by
    obtain ⟨object, hobject, hname⟩ := h.named name q hq
    rw [heap_fromString]
    rcases eq_or_ne q p with rfl | hne
    · rw [Function.update_self, hobject]
      exact ⟨_, rfl, hname⟩
    · rw [Function.update_of_ne hne]
      exact ⟨object, hobject, hname⟩
  fresh q hq := by
    rw [heap_fromString]
    rcases eq_or_ne q p with rfl | hne
    · rw [Function.update_self, h.fresh q hq]
      rfl
    · rw [Function.update_of_ne hne]
      exact h.fresh q hq

theorem extends_fromString (s : Registry V) (p : ℕ) (val : Bytes) :
    s.Extends (s.fromString fromStr throws p val) where
  keeps _ _ h := h
  typeAt q _ h := (typeAt_fromString s p val q).trans h

variable (emit fromStr throws) in
theorem sound_and_extends_loadNode (h : s.Sound) (i : Bytes × Node) :
    (s.loadNode emit fromStr throws i).Sound ∧ s.Extends (s.loadNode emit fromStr throws i) := by
  rw [loadNode]
  split
  · exact ⟨h, Extends.refl s⟩
  · split
    · exact ⟨h, Extends.refl s⟩
    · exact ⟨h.fromString _ _, extends_fromString s _ _⟩

variable (emit fromStr throws) in
/-- **Loading a document registers nothing and removes nothing** — by induction on its nodes. -/
theorem sound_and_extends_loadFromYaml (h : s.Sound) (root : Node) :
    (s.loadFromYaml emit fromStr throws root).Sound
      ∧ s.Extends (s.loadFromYaml emit fromStr throws root) := by
  rw [loadFromYaml]
  induction listAllMember [] root generalizing s with
  | nil => exact ⟨h, Extends.refl s⟩
  | cons i output ih =>
    obtain ⟨hsound, hext⟩ := sound_and_extends_loadNode emit fromStr throws h i
    obtain ⟨hsound', hext'⟩ := ih hsound
    exact ⟨hsound', hext.trans hext'⟩

end Load

/-! ### Lookups -/

section Lookup

variable [DecidableEq ι] {type : ι} {name description : Bytes} {defaultValue : V type} {p : ℕ}

/-- A registered name changes nothing. -/
theorem lookup_of_some (hp : s.datas name = some p) : s.lookup type name description defaultValue
    = (s, .ok (if s.typeAt p = some type then some p else none)) := by
  rw [lookup, hp]
  dsimp only
  split <;> rfl

theorem lookup_of_onlyOf (hnew : s.datas name = none) (hname : OnlyOf nameChars name) :
    s.lookup type name description defaultValue
      = (s.create name (.new type name description defaultValue), .ok (some s.next)) := by
  rw [lookup, hnew]
  exact if_pos hname

theorem lookup_of_not_onlyOf (hnew : s.datas name = none) (hname : ¬ OnlyOf nameChars name) :
    s.lookup type name description defaultValue = (s, .error name) := by
  rw [lookup, hnew]
  exact if_neg hname

theorem lookupExisting_of_some (hp : s.datas name = some p) :
    s.lookupExisting type name = if s.typeAt p = some type then some p else none := by
  rw [lookupExisting, hp]

/-- What `Lookup(name)` finds is there. -/
theorem of_lookupExisting (h : s.lookupExisting type name = some p) :
    s.datas name = some p ∧ s.typeAt p = some type := by
  rw [lookupExisting] at h
  split at h
  case h_1 q hq =>
    obtain ⟨htype, heq⟩ := Option.ite_none_right_eq_some.mp h
    obtain rfl := Option.some.inj heq
    exact ⟨hq, htype⟩
  case h_2 => cases h

/-- **A lookup registers its name or nothing**, and what it returns is there then. -/
theorem sound_and_extends_lookup (h : s.Sound) (type : ι) (name description : Bytes)
    (defaultValue : V type) :
    (s.lookup type name description defaultValue).1.Sound
      ∧ s.Extends (s.lookup type name description defaultValue).1
      ∧ ∀ p, (s.lookup type name description defaultValue).2 = .ok (some p) →
        (s.lookup type name description defaultValue).1.datas name = some p
          ∧ (s.lookup type name description defaultValue).1.typeAt p = some type := by
  cases hq : s.datas name with
  | some q =>
    rw [lookup_of_some hq]
    refine ⟨h, Extends.refl s, fun p hp => ?_⟩
    obtain ⟨htype, heq⟩ := Option.ite_none_right_eq_some.mp (Except.ok.inj hp)
    obtain rfl := Option.some.inj heq
    exact ⟨hq, htype⟩
  | none =>
    by_cases hname : OnlyOf nameChars name
    · rw [lookup_of_onlyOf hq hname]
      refine ⟨h.create hname (map_tolower_of_onlyOf hname), h.extends_create _ hq, fun p hp => ?_⟩
      obtain rfl := Option.some.inj (Except.ok.inj hp)
      refine ⟨Function.update_self .., ?_⟩
      rw [typeAt, heap_create, Function.update_self]
      rfl
    · rw [lookup_of_not_onlyOf hq hname]
      exact ⟨h, Extends.refl s, fun p hp => nomatch hp⟩

/-- **A lookup that is refused changes nothing.** -/
theorem lookup_of_refused
    (h : ∀ p, (s.lookup type name description defaultValue).2 ≠ .ok (some p)) :
    (s.lookup type name description defaultValue).1 = s := by
  cases hq : s.datas name with
  | some q => rw [lookup_of_some hq]
  | none =>
    by_cases hname : OnlyOf nameChars name
    · exact absurd (congrArg Prod.snd (lookup_of_onlyOf hq hname)) (h s.next)
    · rw [lookup_of_not_onlyOf hq hname]

end Lookup

end Registry

/-! ## Whole programs -/

namespace RegistryRun

/-- **What has been returned is registered.** -/
structure Sound (s : RegistryRun V) : Prop where
  registry : s.registry.Sound
  answered : ∀ type name p, (type, name, some p) ∈ s.answers →
    s.registry.datas name = some p ∧ s.registry.typeAt p = some type

variable {s : RegistryRun V}

/-- An older answer is still right in a registry that has been added to. -/
theorem Sound.of_extends (h : s.Sound) {registry : Registry V} (hsound : registry.Sound)
    (hext : s.registry.Extends registry) : Sound { s with registry } where
  registry := hsound
  answered type name p hmem :=
    (h.answered type name p hmem).imp (hext.keeps name p) (hext.typeAt p type)

/-- One more right answer. -/
theorem Sound.answer (h : s.Sound) {type : ι} {name : Bytes} {answer : Option ℕ}
    (hanswer : ∀ p, answer = some p →
      s.registry.datas name = some p ∧ s.registry.typeAt p = some type) :
    Sound { s with answers := s.answers ++ [(type, name, answer)] } where
  registry := h.registry
  answered type' name' p hmem := by
    rcases List.mem_append.mp hmem with hmem | hmem
    · exact h.answered type' name' p hmem
    · obtain ⟨rfl, hname⟩ := Prod.mk.inj (List.mem_singleton.mp hmem)
      obtain ⟨rfl, rfl⟩ := Prod.mk.inj hname
      exact hanswer p rfl

section Calls

variable [DecidableEq ι]

theorem Sound.consistent (h : s.Sound) : s.Consistent where
  admitted := h.registry.admitted
  named := h.registry.named
  same type type' name p p' hmem hmem' :=
    Option.some.inj ((h.answered type name p hmem).1.symm.trans (h.answered type' name p' hmem').1)
  live := h.answered
  typed name p object hp hobject type := by
    have htype : s.registry.typeAt p = some type ↔ object.type = type := by
      rw [Registry.typeAt, hobject, Option.map_some, Option.some_inj]
    refine ⟨?_, fun description defaultValue => ?_⟩
    · rw [Registry.lookupExisting_of_some hp]
      exact if_congr htype rfl rfl
    · rw [Registry.lookup_of_some hp]
      exact congrArg Except.ok (if_congr htype rfl rfl)

variable [∀ type, BEq (V type)] {emit : Node → Bytes}
  {fromStr : ∀ type, Bytes → Option (V type)} {throws : ∀ type, ℕ → V type → V type → Bool}

theorem sound_and_extends_apply (h : s.Sound) (call : RegistryCall V) :
    (s.apply emit fromStr throws call).Sound
      ∧ s.registry.Extends (s.apply emit fromStr throws call).registry := by
  cases call with
  | lookup type name description defaultValue =>
    obtain ⟨hsound, hext, hanswer⟩ :=
      Registry.sound_and_extends_lookup h.registry type name description defaultValue
    rw [apply]
    split
    case h_1 registry p hlookup =>
      rw [hlookup] at hsound hext hanswer
      exact ⟨(h.of_extends hsound hext).answer fun q hq => hanswer q (congrArg Except.ok hq), hext⟩
    case h_2 registry error hlookup =>
      rw [hlookup] at hsound hext
      exact ⟨h.of_extends hsound hext, hext⟩
  | lookupExisting type name =>
    exact ⟨h.answer fun p hp => Registry.of_lookupExisting hp, Registry.Extends.refl _⟩
  | loadFromYaml root =>
    obtain ⟨hsound, hext⟩ :=
      Registry.sound_and_extends_loadFromYaml emit fromStr throws h.registry root
    exact ⟨h.of_extends hsound hext, hext⟩

theorem after_concat (calls : List (RegistryCall V)) (call : RegistryCall V) :
    after emit fromStr throws (calls ++ [call])
      = (after emit fromStr throws calls).apply emit fromStr throws call := by
  rw [after, after, List.foldl_concat]

variable (emit fromStr throws)

theorem sound_after (calls : List (RegistryCall V)) :
    (after emit fromStr throws calls).Sound := by
  induction calls using List.reverseRecOn with
  | nil => exact ⟨Registry.sound_empty, fun _ _ _ h => nomatch h⟩
  | append_singleton calls call ih =>
    rw [after_concat]
    exact (sound_and_extends_apply ih call).1

/-- **The registry only grows** — by induction on the later calls. -/
theorem extends_after (calls calls' : List (RegistryCall V)) :
    (after emit fromStr throws calls).registry.Extends
      (after emit fromStr throws (calls ++ calls')).registry := by
  induction calls' using List.reverseRecOn with
  | nil =>
    rw [List.append_nil]
    exact Registry.Extends.refl _
  | append_singleton calls' call ih =>
    rw [← List.append_assoc, after_concat]
    exact ih.trans (sound_and_extends_apply (sound_after emit fromStr throws _) call).2

/-- A call that is refused leaves the registry as it is. -/
theorem registry_apply_of_refused {call : RegistryCall V} (h : call.Refused s.registry) :
    (s.apply emit fromStr throws call).registry = s.registry := by
  cases call with
  | lookup type name description defaultValue =>
    have heq := Registry.lookup_of_refused h
    rw [apply]
    split
    case h_1 hlookup | h_2 hlookup =>
      rw [hlookup] at heq
      exact heq
  | lookupExisting => rfl
  | loadFromYaml => exact h.elim

end Calls

end RegistryRun

/-! ## The registry of the variables themselves -/

namespace Registry

variable {s : Registry V}

section Lookup

variable [DecidableEq ι]

/-- A lookup is a lookup there, of the variable it would make. -/
theorem view_lookup (h : s.Sound) (type : ι) (name description : Bytes) (defaultValue : V type) :
    (s.lookup type name description defaultValue).1.view
      = (YServer.lookup s.view name (.new type name description defaultValue)).getD s.view := by
  cases hq : s.datas name with
  | some q =>
    obtain ⟨object, hobject, -⟩ := h.named name q hq
    rw [lookup_of_some hq, YServer.lookup, view, hq, Option.bind_some, hobject]
    rfl
  | none =>
    have hview : s.view name = none := by rw [view, hq, Option.bind_none]
    by_cases hname : OnlyOf nameChars name
    · rw [lookup_of_onlyOf hq hname, YServer.lookup, hview]
      dsimp only
      rw [if_pos hname, Option.getD_some]
      funext name'
      rcases eq_or_ne name' name with rfl | hne
      · rw [view, datas_create, Function.update_self, Function.update_self, Option.bind_some,
          heap_create, Function.update_self]
      · rw [view, datas_create, Function.update_of_ne hne, Function.update_of_ne hne, view]
        cases hp : s.datas name' with
        | none => rfl
        | some p =>
          rw [Option.bind_some, Option.bind_some, heap_create,
            Function.update_of_ne (Nat.ne_of_lt (h.lt_next hp))]
    · rw [lookup_of_not_onlyOf hq hname, YServer.lookup, hview]
      dsimp only
      rw [if_neg hname, Option.getD_none]

end Lookup

section Load

variable [∀ type, BEq (V type)] (emit : Node → Bytes)
  (fromStr : ∀ type, Bytes → Option (V type)) (throws : ∀ type, ℕ → V type → V type → Bool)

theorem view_loadNode (h : s.Sound) (i : Bytes × Node) :
    (s.loadNode emit fromStr throws i).view
      = YServer.loadNode emit (VarObject.fromString fromStr throws) s.view i := by
  rw [loadNode, YServer.loadNode, lookupBase]
  by_cases hempty : i.1 = []
  · rw [if_pos hempty, if_pos hempty]
  rw [if_neg hempty, if_neg hempty]
  cases hq : s.datas (i.1.map tolower) with
  | none =>
    have hview : s.view (i.1.map tolower) = none := by rw [view, hq, Option.bind_none]
    dsimp only
    rw [hview]
  | some q =>
    obtain ⟨object, hobject, -⟩ := h.named _ q hq
    have hview : s.view (i.1.map tolower) = some object := by
      rw [view, hq, Option.bind_some, hobject]
    dsimp only
    rw [hview]
    dsimp only
    funext name
    rcases eq_or_ne name (i.1.map tolower) with rfl | hne
    · rw [Function.update_self, view]
      change (s.datas _).bind _ = _
      rw [hq, Option.bind_some, heap_fromString, Function.update_self, hobject]
      rfl
    · rw [Function.update_of_ne hne, view, view]
      change (s.datas name).bind _ = _
      cases hp : s.datas name with
      | none => rfl
      | some p =>
        -- two names have two objects
        have hpq : p ≠ q := fun heq => hne (h.name_unique hp (heq ▸ hq))
        rw [Option.bind_some, Option.bind_some, heap_fromString, Function.update_of_ne hpq]

/-- **Loading through the pointers is loading the variables** — by induction on the nodes. -/
theorem view_loadFromYaml (h : s.Sound) (root : Node) :
    (s.loadFromYaml emit fromStr throws root).view
      = YServer.loadFromYaml emit (VarObject.fromString fromStr throws) s.view root := by
  rw [loadFromYaml, YServer.loadFromYaml]
  induction listAllMember [] root generalizing s with
  | nil => rfl
  | cons i output ih =>
    rw [List.foldl_cons, List.foldl_cons, ← view_loadNode emit fromStr throws h i]
    exact ih (sound_and_extends_loadNode emit fromStr throws h i).1

end Load

end Registry

/-! ## What a pointer sees -/

section Main

variable [∀ type, BEq (V type)] (emit : Node → Bytes)
  (fromStr : ∀ type, Bytes → Option (V type)) (throws : ∀ type, ℕ → V type → V type → Bool)

/-- **A pointer that was returned sees what is loaded.** -/
theorem RegistryRun.Sound.heap_loadFromYaml {s : RegistryRun V} (h : s.Sound) (root : Node)
    {type : ι} {name : Bytes} {p : ℕ} (hmem : (type, name, some p) ∈ s.answers) :
    (s.registry.loadFromYaml emit fromStr throws root).heap p
      = loadFromYaml emit (VarObject.fromString fromStr throws) s.registry.view root name := by
  obtain ⟨hp, -⟩ := h.answered type name p hmem
  have hp' : (s.registry.loadFromYaml emit fromStr throws root).datas name = some p :=
    (Registry.sound_and_extends_loadFromYaml emit fromStr throws h.registry root).2.keeps name p hp
  rw [← Registry.view_loadFromYaml emit fromStr throws h.registry root, Registry.view, hp',
    Option.bind_some]

variable [DecidableEq ι]

open RegistryRun

/-- **The registry is append-only and consistent**: after any calls it is consistent, what it has
then stays through any further ones, a call that is refused changes nothing, and whoever has a
pointer sees what is loaded into the variable of that name. -/
theorem registry_appendOnly (calls : List (RegistryCall V)) :
    (after emit fromStr throws calls).Consistent
      ∧ (∀ calls' name p, (after emit fromStr throws calls).registry.datas name = some p →
        (after emit fromStr throws (calls ++ calls')).registry.datas name = some p)
      ∧ (∀ call : RegistryCall V, call.Refused (after emit fromStr throws calls).registry →
        (after emit fromStr throws (calls ++ [call])).registry
          = (after emit fromStr throws calls).registry)
      ∧ ∀ root type name p, (type, name, some p) ∈ (after emit fromStr throws calls).answers →
        (after emit fromStr throws (calls ++ [.loadFromYaml root])).registry.heap p
          = loadFromYaml emit (VarObject.fromString fromStr throws)
            (after emit fromStr throws calls).registry.view root name := by
  have hsound := sound_after emit fromStr throws calls
  refine ⟨hsound.consistent, fun calls' => ?_, fun call hrefused => ?_,
    fun root type name p hmem => ?_⟩
  · exact (extends_after emit fromStr throws calls calls').keeps
  · rw [after_concat]
    exact registry_apply_of_refused emit fromStr throws hrefused
  · rw [after_concat]
    exact hsound.heap_loadFromYaml emit fromStr throws root hmem

end Main

end YServer
