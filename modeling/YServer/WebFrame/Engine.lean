import YServer.WebFrame.Router

/-!
# WebFrame/Engine — the engine and the two components it goes through

    Engine::Engine ──▸ server_  (make_unique)
                       router_  (left empty)

    Run              ──▸ server_->listen
    Get, Post        ──▸ router_->addRoute
    ServeHTTP        ──▸ router_->handle

No call constructs the router either.  An engine that had both would keep them, and its table would
be that of all routes added before (`EngineRun.Ready.call`); as it is, every run
that reaches a `Get`, a `Post` or a `ServeHTTP` ends there (`not_ready_of_visited`).
-/

namespace YServer

open Machinery

/-- `http_server`, as far as the engine uses it: the ports it was told to listen on. -/
structure HttpServer where
  ports : List Bytes
  deriving DecidableEq, Repr

/-- `Engine`; an empty `unique_ptr` is `none`. -/
structure Engine (H : Type) where
  server : Option HttpServer
  router : Option (Router H)

/-- A call on an engine. -/
inductive EngineCall (H : Type)
  | get (path : Bytes) (handler : H)
  | post (path : Bytes) (handler : H)
  | run (port : Bytes)
  | serveHTTP (request : HttpRequest) (response : HttpResponse)

variable {H : Type}

namespace Engine

/-- `Engine::Engine`. -/
def new : Engine H where
  server := some ⟨[]⟩
  router := none

/-- `Engine::addRoute`; there is no result if an empty pointer is dereferenced. -/
def addRoute (engine : Engine H) (method path : Bytes) (handler : H) : Option (Engine H) := do
  let router ← engine.router
  return { engine with router := some (router.addRoute method path handler) }

def get (engine : Engine H) (path : Bytes) (handler : H) : Option (Engine H) :=
  engine.addRoute (ascii "GET") path handler

def post (engine : Engine H) (path : Bytes) (handler : H) : Option (Engine H) :=
  engine.addRoute (ascii "POST") path handler

/-- `Engine::Run`. -/
def run (engine : Engine H) (port : Bytes) : Option (Engine H) := do
  let server ← engine.server
  return { engine with server := some ⟨server.ports ++ [port]⟩ }

/-- `Engine::ServeHTTP`: what becomes of the request. -/
def serveHTTP (engine : Engine H) (request : HttpRequest) (response : HttpResponse) :
    Option (Handled H) := do
  let router ← engine.router
  return router.handle (Context.new request response)

end Engine

/-- An engine in use: what became of the requests it served, and whether one of its calls has
dereferenced an empty pointer. -/
structure EngineRun (H : Type) where
  engine : Engine H
  served : List (Handled H)
  faulted : Bool

namespace EngineRun

/-- A call that changes the engine. -/
def after (s : EngineRun H) : Option (Engine H) → EngineRun H
  | some engine => { s with engine := engine }
  | none => { s with faulted := true }

/-- What one call does. -/
def call (s : EngineRun H) : EngineCall H → EngineRun H
  | .get path handler => s.after (s.engine.get path handler)
  | .post path handler => s.after (s.engine.post path handler)
  | .run port => s.after (s.engine.run port)
  | .serveHTTP request response =>
    match s.engine.serveHTTP request response with
    | some handled => { s with served := s.served ++ [handled] }
    | none => { s with faulted := true }

end EngineRun

/-- An engine from its constructor on; a run that has dereferenced an empty pointer is over. -/
def engineSystem (H : Type) : System (EngineRun H) (EngineCall H) where
  init := ⟨Engine.new, [], false⟩
  step s c := if s.faulted then none else some (s.call c)

/-- **The engine is usable**: both components have been constructed, and no call has dereferenced an
empty pointer. -/
def EngineRun.Ready (s : EngineRun H) : Prop :=
  s.engine.server.isSome ∧ s.engine.router.isSome ∧ s.faulted = false

/-- The calls that go through the router. -/
def EngineCall.UsesRouter : EngineCall H → Prop
  | .get _ _ | .post _ _ | .serveHTTP _ _ => True
  | .run _ => False

/-! ## An engine that has both components -/

/-- The route a call adds. -/
def EngineCall.route : EngineCall H → Option (Route H)
  | .get path handler => some ⟨ascii "GET", path, handler⟩
  | .post path handler => some ⟨ascii "POST", path, handler⟩
  | .run _ | .serveHTTP _ _ => none

namespace EngineRun

variable {s : EngineRun H}

/-- **An engine with both components keeps them**, and its table gains the route of the call. -/
theorem Ready.call (hs : s.Ready) {routes : List (Route H)}
    (hrouter : s.engine.router = some (Router.registered routes)) (c : EngineCall H) :
    (s.call c).Ready ∧
      (s.call c).engine.router = some (Router.registered (routes ++ c.route.toList)) := by
  obtain ⟨hserver, -, hfaulted⟩ := hs
  obtain ⟨server, hserver⟩ := Option.isSome_iff_exists.mp hserver
  cases c with
  | get path handler | post path handler =>
    rw [EngineCall.route, Option.toList_some, Router.registered, List.foldl_concat]
    simp [EngineRun.call, Engine.get, Engine.post, Engine.addRoute, hrouter, hserver, hfaulted,
      after, Ready, Router.registered]
  | run port =>
    simp [EngineRun.call, Engine.run, hrouter, hserver, hfaulted, after, Ready, EngineCall.route]
  | serveHTTP request response =>
    simp [EngineRun.call, Engine.serveHTTP, hrouter, hserver, hfaulted, Ready, EngineCall.route]

end EngineRun

/-! ## The engine as it is constructed -/

/-- A server without a router. -/
structure EngineRun.Routerless (s : EngineRun H) : Prop where
  server : s.engine.server.isSome
  router : s.engine.router = none

namespace EngineRun

variable {s : EngineRun H}

theorem Routerless.not_ready (h : s.Routerless) : ¬ s.Ready := by
  rintro ⟨-, hrouter, -⟩
  rw [h.router] at hrouter
  cases hrouter

/-- No call constructs a router, and those that go through it dereference an empty pointer. -/
theorem Routerless.call (h : s.Routerless) (hfaulted : s.faulted = false) (c : EngineCall H) :
    (s.call c).Routerless ∧ ((s.call c).faulted = true ↔ c.UsesRouter) := by
  obtain ⟨hserver, hrouter⟩ := h
  obtain ⟨server, hserver⟩ := Option.isSome_iff_exists.mp hserver
  cases c with
  | get path handler | post path handler =>
    simp only [EngineRun.call, Engine.get, Engine.post, Engine.addRoute, hrouter]
    exact ⟨⟨by simp [after, hserver], by simp [after, hrouter]⟩, iff_of_true rfl trivial⟩
  | run port =>
    simp only [EngineRun.call, Engine.run, hserver]
    exact ⟨⟨by simp [after], by simp [after, hrouter]⟩, iff_of_false (by simp [after, hfaulted]) id⟩
  | serveHTTP request response =>
    simp only [EngineRun.call, Engine.serveHTTP, hrouter]
    exact ⟨⟨by simp [hserver], by simp [hrouter]⟩, iff_of_true rfl trivial⟩

end EngineRun

theorem routerless_of_visited (calls : List (EngineCall H)) :
    ∀ s ∈ (engineSystem H).visited calls, s.Routerless := by
  refine System.forall_visited EngineRun.Routerless ⟨rfl, rfl⟩ (fun s c s' hs hstep => ?_) calls
  obtain ⟨hfaulted, hstep⟩ := Option.ite_none_left_eq_some.mp hstep
  obtain rfl := Option.some.inj hstep
  exact (hs.call (Bool.eq_false_iff.mpr hfaulted) c).1

/-- A run dereferences an empty pointer exactly if a call goes through the router — by induction on
the calls; those before it leave the engine as it was. -/
theorem faulted_iff_usesRouter {calls : List (EngineCall H)} {s : EngineRun H} (hs : s.Routerless)
    (hfaulted : s.faulted = false) :
    (∃ t ∈ ((engineSystem H).movesFrom s calls).map Move.dst, t.faulted = true)
      ↔ ∃ c ∈ calls, c.UsesRouter := by
  induction calls generalizing s with
  | nil => simp
  | cons c calls ih =>
    have hstep : (engineSystem H).step s c = some (s.call c) := if_neg (by simp [hfaulted])
    obtain ⟨hcall, huses⟩ := hs.call hfaulted c
    rw [System.movesFrom_cons_of_step _ hstep, List.map_cons, List.exists_mem_cons_iff,
      List.exists_mem_cons_iff, huses]
    by_cases hc : c.UsesRouter
    · simp [hc]
    · rw [ih hcall (Bool.eq_false_iff.mpr (mt huses.mp hc))]

/-- **In no state of any run is the engine usable**, and a run dereferences an empty pointer as soon
as a call goes through the router. -/
theorem not_ready_of_visited (calls : List (EngineCall H)) :
    (∀ s ∈ (engineSystem H).visited calls, ¬ s.Ready) ∧
      ((∃ s ∈ (engineSystem H).visited calls, s.faulted = true) ↔ ∃ c ∈ calls, c.UsesRouter) := by
  refine ⟨fun s hs => (routerless_of_visited calls s hs).not_ready, ?_⟩
  rw [System.visited, List.exists_mem_cons_iff]
  exact (or_iff_right Bool.false_ne_true).trans (faulted_iff_usesRouter ⟨rfl, rfl⟩ rfl)

/-- The calls of a server with one route. -/
def helloWorld : List (EngineCall ℕ) := [.get (ascii "/") 0, .run (ascii "8080")]

/-- Its first call dereferences an empty pointer. -/
theorem not_ready_helloWorld :
    (¬ ∀ s ∈ (engineSystem ℕ).visited helloWorld, s.Ready) ∧
      ∃ s ∈ (engineSystem ℕ).visited helloWorld, s.faulted = true := by
  refine ⟨fun h => ?_, ⟨⟨Engine.new, [], true⟩, ?_, rfl⟩⟩
  · exact Bool.false_ne_true (h _ List.mem_cons_self).2.1
  · exact List.mem_cons_of_mem _ List.mem_cons_self

end YServer
