import YServer.BaseNet.FileDescriptor
import Mathlib.Data.Fintype.EquivFin

/-!
# BaseNet/Bind — how a server socket gets its address

`server_socket::bind` goes through what `getaddrinfo` returns, and on each node it calls `socket`,
`setsockopt` twice and `bind`:

    node ──socket──▸ fd ──setsockopt──▸ ──setsockopt──▸ ──bind──▸ break
              │            │                │             │
              └────────────┴───── throw ────┴─────────────┘

The loop is there to try every node (`BindsFirst`), but each failure leaves it with an exception, so
it tries the first one only, and the object keeps what `socket` returned, even a -1
(`bindsFirst_iff`).
-/

namespace YServer

/-! ## The calls -/

namespace FdTable

variable (k : FdTable)

/-- Only finitely many numbers are taken. -/
theorem exists_free : ∃ fd : ℕ, k.table fd = none := by
  by_contra hfull
  choose d hd using fun fd : ℕ => Option.ne_none_iff_exists'.mp (not_exists.mp hfull fd)
  let descriptor (fd : ℕ) : Fin k.opened := ⟨d fd, k.lt_opened fd (d fd) (hd fd)⟩
  refine not_injective_infinite_finite descriptor fun fd fd' h => ?_
  have hd' : k.table fd' = some (d fd) := by rw [hd fd', Fin.mk.inj h]
  exact Int.ofNat_inj.mp (k.injective fd fd' (d fd) (hd fd) hd')

/-- The number the kernel gives the next descriptor. -/
def lowestFree : ℕ := Nat.find k.exists_free

theorem table_lowestFree : k.table k.lowestFree = none := Nat.find_spec k.exists_free

end FdTable

/-- `addrinfo`. -/
structure AddrInfo where
  aiFamily : ℤ
  aiSocktype : ℤ
  aiProtocol : ℤ
  aiAddr : Bytes
  deriving DecidableEq, Repr

/-- A node of the list `getaddrinfo` returns, and whether `socket`, the two `setsockopt` and `bind`
can succeed on it. -/
structure Candidate where
  node : AddrInfo
  socket : Bool
  reuseAddr : Bool
  reusePort : Bool
  bind : Bool
  deriving DecidableEq, Repr

/-- All four calls can. -/
def Candidate.works (c : Candidate) : Bool := c.socket && c.reuseAddr && c.reusePort && c.bind

/-- The descriptors of the process, and the addresses their sockets are bound to. -/
structure Network where
  fds : FdTable
  bound : ℕ → Option Bytes

namespace Network

variable (net : Network)

/-- `socket`. -/
def socket (c : Candidate) : Network × ℤ :=
  if c.socket then
    ({ fds := net.fds.openAt net.fds.lowestFree (Int.natCast_nonneg _) net.fds.table_lowestFree
       bound := Function.update net.bound net.fds.opened none }, net.fds.lowestFree)
  else (net, -1)

theorem socket_of_socket {c : Candidate} (h : c.socket) :
    net.socket c = ({ fds := net.fds.openAt net.fds.lowestFree (Int.natCast_nonneg _)
                        net.fds.table_lowestFree
                      bound := Function.update net.bound net.fds.opened none },
      (net.fds.lowestFree : ℤ)) := if_pos h

theorem socket_of_not_socket {c : Candidate} (h : ¬ c.socket) : net.socket c = (net, -1) :=
  if_neg h

/-- `setsockopt(SOL_SOCKET, SO_REUSEADDR)`… -/
def setReuseAddr (c : Candidate) : ℤ := if c.reuseAddr then 0 else -1

/-- …and `setsockopt(SOL_SOCKET, SO_REUSEPORT)`. -/
def setReusePort (c : Candidate) : ℤ := if c.reusePort then 0 else -1

/-- `::bind`. -/
def bindTo (c : Candidate) (fd : ℤ) : Network × ℤ :=
  match c.bind, net.fds.table fd with
  | true, some d => ({ net with bound := Function.update net.bound d (some c.node.aiAddr) }, 0)
  | _, _ => (net, -1)

end Network

/-! ## server_socket -/

inductive SocketError
  | getaddrinfo
  | socket
  | setsockopt
  | bind
  | invalid
  | listen
  deriving DecidableEq, Repr

/-- The text of the `std::runtime_error`. -/
def SocketError.what : SocketError → String
  | .getaddrinfo => "failed to invoke 'getaddrinfo'"
  | .socket => "failed to invoke 'socket'"
  | .setsockopt => "failed to invoke 'setsockopt'"
  | .bind => "failed to invoke 'bind'"
  | .invalid => "the file descriptor is invalid"
  | .listen => "failed to invoke 'listen'"

/-- A `server_socket`, which is a `file_descriptor`, in its process. -/
structure ServerSocket where
  net : Network
  object : FileDescriptor

namespace ServerSocket

/-- The body of the loop; it throws, or it breaks out of the loop. -/
def tryNode (s : ServerSocket) (c : Candidate) : ServerSocket × Except SocketError Unit :=
  let (net, fd) := s.net.socket c
  let s : ServerSocket := ⟨net, ⟨some fd⟩⟩
  if fd = -1 then (s, .error .socket)
  else if Network.setReuseAddr c = -1 then (s, .error .setsockopt)
  else if Network.setReusePort c = -1 then (s, .error .setsockopt)
  else
    let (net, result) := s.net.bindTo c fd
    if result = -1 then ({ s with net }, .error .bind)
    else ({ s with net }, .ok ())

/-- The loop over the nodes. -/
def bindLoop (s : ServerSocket) : List Candidate → ServerSocket × Except SocketError Unit
  | [] => (s, .ok ())
  | c :: _ => s.tryNode c

/-- `bind`; `nodes` is what `getaddrinfo` returns. -/
def bind (s : ServerSocket) (nodes : Option (List Candidate)) :
    ServerSocket × Except SocketError Unit :=
  match nodes with
  | none => (s, .error .getaddrinfo)
  | some nodes => s.bindLoop nodes

@[simp] theorem bind_cons (s : ServerSocket) (c : Candidate) (nodes : List Candidate) :
    s.bind (some (c :: nodes)) = s.tryNode c := rfl

/-- `listen`; `listens` is whether `::listen` can succeed. -/
def listen (s : ServerSocket) (listens : Bool) : Except SocketError Unit :=
  match s.object.rawFileDescriptor with
  | none => .error .invalid
  | some _ => if listens then .ok () else .error .listen

/-- A server socket on which nothing has been called yet. -/
def fresh (net : Network) : ServerSocket := ⟨net, .default⟩

end ServerSocket

/-- **A server socket is bound to the first candidate that works, or to none and holds nothing.** -/
structure BindsFirst (net : Network) (nodes : List Candidate)
    (r : ServerSocket × Except SocketError Unit) : Prop where
  succeeds_iff : r.2 = .ok () ↔ ∃ c ∈ nodes, c.works
  /-- It holds a descriptor of its own then, bound to the first candidate that works… -/
  bound : r.2 = .ok () → ∃ fd d c, r.1.object = ⟨some fd⟩ ∧ r.1.net.fds.table fd = some d
    ∧ net.fds.opened ≤ d ∧ nodes.find? Candidate.works = some c
    ∧ r.1.net.bound d = some c.node.aiAddr
  /-- …and none otherwise, as `listen` will say. -/
  clean : r.2 ≠ .ok () → r.1.object = ⟨none⟩ ∧ ∀ listens, r.1.listen listens = .error .invalid
  /-- What else it has opened is not open any more. -/
  noOther : ∀ fd d, r.1.net.fds.table fd = some d → net.fds.opened ≤ d → r.1.object = ⟨some fd⟩

/-! ## One node decides -/

namespace ServerSocket

variable (s : ServerSocket) (c : Candidate)

/-- **Whatever fails, the object holds what `socket` returned.** -/
theorem object_tryNode : (s.tryNode c).1.object = ⟨some (s.net.socket c).2⟩ := by
  simp only [tryNode]
  split_ifs <;> rfl

theorem tryNode_of_works (h : c.works) :
    (s.tryNode c).2 = .ok ()
      ∧ (s.tryNode c).1.net.fds = s.net.fds.openAt s.net.fds.lowestFree (Int.natCast_nonneg _)
        s.net.fds.table_lowestFree
      ∧ (s.tryNode c).1.net.bound s.net.fds.opened = some c.node.aiAddr := by
  simp only [Candidate.works, Bool.and_eq_true] at h
  obtain ⟨⟨⟨hsocket, haddr⟩, hport⟩, hbind⟩ := h
  have hne : (s.net.fds.lowestFree : ℤ) ≠ -1 := by omega
  simp [tryNode, s.net.socket_of_socket hsocket, Network.setReuseAddr, haddr,
    Network.setReusePort, hport, Network.bindTo, hbind, hne]

/-- **The loop ends with an exception if one of the calls fails.** -/
theorem works_of_tryNode (h : (s.tryNode c).2 = .ok ()) : c.works := by
  simp only [tryNode] at h
  split_ifs at h with hsocket haddr hport hbind
  simp only [Candidate.works, Bool.and_eq_true]
  refine ⟨⟨⟨?_, ?_⟩, ?_⟩, ?_⟩
  · by_contra hfail
    exact hsocket (by rw [s.net.socket_of_not_socket hfail])
  · by_contra hfail
    exact haddr (if_neg hfail)
  · by_contra hfail
    exact hport (if_neg hfail)
  · by_contra hfail
    exact hbind (by simp [Network.bindTo, hfail])

end ServerSocket

variable {net : Network} {c : Candidate} {nodes : List Candidate}

theorem bindsFirst_of_works (h : c.works) :
    BindsFirst net (c :: nodes) ((ServerSocket.fresh net).bind (some (c :: nodes))) := by
  rw [ServerSocket.bind_cons]
  obtain ⟨hok, hfds, hbound⟩ := (ServerSocket.fresh net).tryNode_of_works c h
  have hobject : ((ServerSocket.fresh net).tryNode c).1.object = ⟨some net.fds.lowestFree⟩ := by
    rw [ServerSocket.object_tryNode, ServerSocket.fresh,
      net.socket_of_socket (Bool.and_elim_left (Bool.and_elim_left (Bool.and_elim_left h)))]
  refine ⟨⟨fun _ => ⟨c, List.mem_cons_self, h⟩, fun _ => hok⟩, fun _ => ?_, fun hfail => ?_,
    fun fd d hd hnew => ?_⟩
  · refine ⟨net.fds.lowestFree, net.fds.opened, c, hobject, ?_, Nat.le_refl _, ?_, hbound⟩
    · rw [hfds]
      exact net.fds.table_openAt _ _
    · exact List.find?_cons_of_pos h
  · exact absurd hok hfail
  · rw [hfds] at hd
    rcases (net.fds.update_open_eq_some_iff net.fds.table_lowestFree).mp hd with ⟨rfl, -⟩ | hold
    · exact hobject
    · exact absurd (net.fds.lt_opened fd d hold) (Nat.not_lt.mpr hnew)

/-- **`bind` on a fresh socket does as it should exactly if the first candidate works**, whatever
the others do. -/
theorem bindsFirst_iff (net : Network) (c : Candidate) (nodes : List Candidate) :
    BindsFirst net (c :: nodes) ((ServerSocket.fresh net).bind (some (c :: nodes)))
      ↔ c.works := by
  refine ⟨fun h => ?_, bindsFirst_of_works⟩
  by_contra hfail
  have hthrow : ((ServerSocket.fresh net).bind (some (c :: nodes))).2 ≠ .ok () := fun hok =>
    hfail (ServerSocket.works_of_tryNode _ c hok)
  -- the object holds a number all the same
  obtain ⟨hobject, -⟩ := h.clean hthrow
  rw [ServerSocket.bind_cons, ServerSocket.object_tryNode] at hobject
  cases hobject

/-- An address that is in use, and one that is not. -/
def portTaken : List Candidate :=
  [⟨⟨10, 1, 6, []⟩, true, true, true, false⟩, ⟨⟨2, 1, 6, []⟩, true, true, true, true⟩]

/-- `bind` throws, though the second address could be bound. -/
theorem not_bindsFirst_portTaken : ¬ BindsFirst ⟨.empty, fun _ => none⟩ portTaken
    ((ServerSocket.fresh ⟨.empty, fun _ => none⟩).bind (some portTaken)) := by
  intro h
  have hok := h.succeeds_iff.mpr ⟨portTaken.getLast (by decide), by decide, by decide⟩
  have hworks : (portTaken.head (by decide)).works := ServerSocket.works_of_tryNode _ _ hok
  exact absurd hworks (by decide)

end YServer
