import YServer.WebFrame.Context

/-!
# WebFrame/Router — which handler does a request reach?

A route is stored under `method ++ "-" ++ path`, and a context is looked up under the same text of
its own method and path:

    ("GET", "x-y") ──▸ "GET-x-y" ◂── ("GET-x", "y")

The text tells two pairs apart unless one method goes on, behind a `'-'`, into the other's path
(`routeKey_eq_iff`).  Methods without a `'-'` are therefore routed exactly
(`handle_registered_of_notMem`); in general it takes that the last route stored under the context's
text is one for its method and path.
-/

namespace YServer

open Machinery

def dash : Byte := 0x2d

/-- The text a method and a path are stored under. -/
def routeKey (method path : Bytes) : Bytes := method ++ [dash] ++ path

/-- The arguments of one `addRoute`. -/
structure Route (H : Type*) where
  method : Bytes
  path : Bytes
  handler : H

/-- `Router`; handlers are whatever the application registers. -/
structure Router (H : Type*) where
  handlers : Bytes → Option H

/-- What `handle` has done with a context: handed it to a handler, or answered it. -/
inductive Handled (H : Type*)
  | invoked (handler : H) (ctx : Context)
  | answered (ctx : Context)
  deriving DecidableEq

variable {H : Type*}

namespace Router

/-- A router without routes. -/
def new : Router H := ⟨fun _ => none⟩

/-- `Router::addRoute`. -/
def addRoute (router : Router H) (method path : Bytes) (handler : H) : Router H :=
  { handlers := fun key =>
      if key = routeKey method path then some handler else router.handlers key }

/-- `Router::handle`. -/
def handle (router : Router H) (ctx : Context) : Handled H :=
  match router.handlers (routeKey ctx.method ctx.path) with
  | some handler => .invoked handler ctx
  | none => .answered (ctx.string 404 (ascii "<h1>404 Not Found</h1>"))

/-- The router a sequence of `addRoute` calls leaves. -/
def registered (routes : List (Route H)) : Router H :=
  routes.foldl (fun router r => router.addRoute r.method r.path r.handler) new

end Router

/-! ## Exact routing -/

/-- The last of the routes with a property. -/
def lastRoute (p : Route H → Prop) [DecidablePred p] (routes : List (Route H)) :
    Option (Route H) :=
  (routes.filter p).getLast?

/-- The route is for this method and this path. -/
def Route.IsFor (r : Route H) (ctx : Context) : Prop := r.method = ctx.method ∧ r.path = ctx.path

/-- …or only stored under the same text. -/
def Route.IsFoundBy (r : Route H) (ctx : Context) : Prop :=
  routeKey ctx.method ctx.path = routeKey r.method r.path

instance (ctx : Context) : DecidablePred fun r : Route H => r.IsFor ctx :=
  fun _ => inferInstanceAs (Decidable (_ ∧ _))

instance (ctx : Context) : DecidablePred fun r : Route H => r.IsFoundBy ctx :=
  fun _ => inferInstanceAs (Decidable (_ = _))

/-- **Routing by exact method and path**: the last route for both, or a 404. -/
def exactDispatch (routes : List (Route H)) (ctx : Context) : Handled H :=
  match lastRoute (·.IsFor ctx) routes with
  | some r => .invoked r.handler ctx
  | none => .answered (ctx.string 404 (ascii "<h1>404 Not Found</h1>"))

/-! ## The last route -/

section LastRoute

variable {p q : Route H → Prop} [DecidablePred p] [DecidablePred q] {routes : List (Route H)}

theorem lastRoute_concat (routes : List (Route H)) (r : Route H) :
    lastRoute p (routes ++ [r]) = if p r then some r else lastRoute p routes := by
  by_cases hp : p r
  · rw [if_pos hp, lastRoute, List.filter_append]
    simp [hp]
  · rw [if_neg hp, lastRoute, List.filter_append]
    simp [hp, lastRoute]

theorem of_lastRoute {r : Route H} (h : lastRoute p routes = some r) : p r := by
  have hmem := List.mem_of_getLast? h
  exact of_decide_eq_true (List.mem_filter.mp hmem).2

/-- If the last of many has the narrower property, it is the last with it — by induction on the
routes, from the last one on. -/
theorem lastRoute_of_imp (hpq : ∀ r, q r → p r) {r : Route H} (h : lastRoute p routes = some r)
    (hq : q r) : lastRoute q routes = some r := by
  induction routes using List.reverseRecOn with
  | nil => cases h
  | append_singleton routes r' ih =>
    rw [lastRoute_concat] at h ⊢
    by_cases hp : p r'
    · rw [if_pos hp] at h
      obtain rfl := Option.some.inj h
      exact if_pos hq
    · rw [if_neg hp] at h
      rw [if_neg fun hq' => hp (hpq r' hq')]
      exact ih h

theorem lastRoute_eq_none (hpq : ∀ r, q r → p r) (h : lastRoute p routes = none) :
    lastRoute q routes = none := by
  rw [lastRoute, List.getLast?_eq_none_iff, List.filter_eq_nil_iff] at h ⊢
  exact fun r hr hq => h r hr (decide_eq_true (hpq r (of_decide_eq_true hq)))

end LastRoute

/-- **The table holds the last route of every text** — by induction on the routes. -/
theorem handlers_registered (routes : List (Route H)) (ctx : Context) :
    (Router.registered routes).handlers (routeKey ctx.method ctx.path)
      = (lastRoute (·.IsFoundBy ctx) routes).map Route.handler := by
  induction routes using List.reverseRecOn with
  | nil => rfl
  | append_singleton routes r ih =>
    rw [lastRoute_concat, Router.registered, List.foldl_concat]
    by_cases hr : r.IsFoundBy ctx
    · rw [if_pos hr]
      exact if_pos hr
    · rw [if_neg hr]
      exact (if_neg hr).trans ih

theorem Route.IsFor.isFoundBy {r : Route H} {ctx : Context} (h : r.IsFor ctx) :
    r.IsFoundBy ctx := by
  rw [Route.IsFoundBy, h.1, h.2]

/-! ## When two pairs share a text -/

/-- **The text of a pair is also that of another exactly when one method goes on into the other's
path.** -/
theorem routeKey_eq_iff {method path method' path' : Bytes} :
    routeKey method path = routeKey method' path' ↔ (method = method' ∧ path = path') ∨
      (∃ s, method' = routeKey method s ∧ path = routeKey s path') ∨
      ∃ s, method = routeKey method' s ∧ path' = routeKey s path := by
  constructor
  · intro h
    rw [routeKey, routeKey, List.append_assoc, List.append_assoc, List.append_eq_append_iff] at h
    rcases h with ⟨s, hmethod, hpath⟩ | ⟨s, hmethod, hpath⟩
    · cases s with
      | nil =>
        rw [List.append_nil] at hmethod
        exact Or.inl ⟨hmethod.symm, (List.cons.inj hpath).2⟩
      | cons c s =>
        obtain ⟨rfl, htail⟩ := List.cons.inj hpath
        exact Or.inr (Or.inl ⟨s, by rw [hmethod, routeKey, List.append_assoc]; rfl,
          by rw [routeKey, List.append_assoc]; exact htail⟩)
    · cases s with
      | nil =>
        rw [List.append_nil] at hmethod
        exact Or.inl ⟨hmethod, (List.cons.inj hpath).2.symm⟩
      | cons c s =>
        obtain ⟨rfl, htail⟩ := List.cons.inj hpath
        exact Or.inr (Or.inr ⟨s, by rw [hmethod, routeKey, List.append_assoc]; rfl,
          by rw [routeKey, List.append_assoc]; exact htail⟩)
  · rintro (⟨rfl, rfl⟩ | ⟨s, rfl, rfl⟩ | ⟨s, rfl, rfl⟩) <;> simp [routeKey]

/-- Methods without the separator are told apart, and so are their paths. -/
theorem eq_of_routeKey_eq {method path method' path' : Bytes} (hm : dash ∉ method)
    (hm' : dash ∉ method') (h : routeKey method path = routeKey method' path') :
    method = method' ∧ path = path' := by
  have hcut : cut [dash] (routeKey method path) = some (method, path) :=
    cut_append_iff_notMem.mpr hm
  rw [h, routeKey, cut_append_iff_notMem.mpr hm', Option.some_inj] at hcut
  exact ⟨(Prod.mk.inj hcut).1.symm, (Prod.mk.inj hcut).2.symm⟩

/-! ## When routing is exact -/

theorem handle_registered (routes : List (Route H)) (ctx : Context) :
    (Router.registered routes).handle ctx
      = match lastRoute (·.IsFoundBy ctx) routes with
        | some r => .invoked r.handler ctx
        | none => .answered (ctx.string 404 (ascii "<h1>404 Not Found</h1>")) := by
  rw [Router.handle, handlers_registered]
  cases lastRoute (·.IsFoundBy ctx) routes <;> rfl

/-- **A context reaches the handler for its method and path exactly when the last route stored under
its text is for them**, or has the handler of the last one that is. -/
theorem handle_registered_eq_iff (routes : List (Route H)) (ctx : Context) :
    (Router.registered routes).handle ctx = exactDispatch routes ctx
      ↔ ∀ r ∈ lastRoute (·.IsFoundBy ctx) routes,
        r.IsFor ctx ∨ ∃ e ∈ lastRoute (·.IsFor ctx) routes, e.handler = r.handler := by
  rw [handle_registered, exactDispatch]
  cases hfound : lastRoute (·.IsFoundBy ctx) routes with
  | none =>
    rw [lastRoute_eq_none (fun _ => Route.IsFor.isFoundBy) hfound]
    simp
  | some r =>
    simp only [Option.mem_some_iff, forall_eq']
    cases hexact : lastRoute (·.IsFor ctx) routes with
    | none =>
      have hnot : ¬ r.IsFor ctx := fun hr => by
        rw [lastRoute_of_imp (fun _ => Route.IsFor.isFoundBy) hfound hr] at hexact
        cases hexact
      simp [hnot]
    | some e =>
      simp only [Handled.invoked.injEq, and_true, Option.mem_some_iff, exists_eq_left']
      constructor
      · exact fun h => Or.inr h.symm
      · rintro (hr | h)
        · rw [lastRoute_of_imp (fun _ => Route.IsFor.isFoundBy) hfound hr] at hexact
          rw [Option.some.inj hexact]
        · exact h.symm

/-- **Methods without a `'-'` are routed exactly**, whatever the paths. -/
theorem handle_registered_of_notMem {routes : List (Route H)} {ctx : Context}
    (hctx : dash ∉ ctx.method) (hroutes : ∀ r ∈ routes, dash ∉ r.method) :
    (Router.registered routes).handle ctx = exactDispatch routes ctx := by
  rw [handle_registered_eq_iff]
  intro r hr
  have hmem := (List.mem_filter.mp (List.mem_of_getLast? hr)).1
  obtain ⟨hmethod, hpath⟩ := eq_of_routeKey_eq hctx (hroutes r hmem) (of_lastRoute hr)
  exact Or.inl ⟨hmethod.symm, hpath.symm⟩

/-- A client's method that goes on into the path of a route. -/
def getX : Context := Context.new ⟨ascii "GET-x", ascii "y", ascii "HTTP/1.0", []⟩ HttpResponse.new

/-- It reaches a handler although no route has its method or its path. -/
theorem handle_getX :
    (Router.registered [⟨ascii "GET", ascii "x-y", 0⟩]).handle getX = .invoked 0 getX ∧
    (Router.registered [⟨ascii "GET", ascii "x-y", 0⟩]).handle getX
      ≠ exactDispatch [⟨ascii "GET", ascii "x-y", 0⟩] getX := by
  decide

end YServer
