import YServer.BaseNet.Worker
import Mathlib.Data.List.Perm.Basic

/-!
# BaseNet/Outstanding — every suspended coroutine has one request

A request is prepared, in the kernel, or completed and not dispatched yet; `outstanding` lists the
coroutines all of these name.  While a coroutine is resumed it is the one with nothing outstanding,
and it ends its turn by preparing its next request or by going:

    Awaited none ──cqeSeen──▶ Awaited (some tag) ──resume──▶ Awaited none

So between two dispatches a handler or a send coroutine is alive exactly when it has a request
outstanding, and then it has one (`awaited_of_visited`).
-/

namespace YServer

open Machinery

namespace Worker

/-! ## Outstanding requests -/

/-- The coroutines named by the requests that are prepared, in the kernel, or completed. -/
def outstanding (w : Worker) : List Tag :=
  w.sq.map Request.tag ++ w.kernel.map (fun f => f.request.tag) ++ w.cq.map Completion.tag

theorem count_outstanding (w : Worker) (tag : Tag) : w.outstanding.count tag
    = (w.sq.map Request.tag).count tag + (w.kernel.map fun f => f.request.tag).count tag
      + (w.cq.map Completion.tag).count tag := by
  rw [outstanding, List.count_append, List.count_append]

/-- **Every handler and every send coroutine alive has one request outstanding**, except the one
that is running; that one and the dead have none. -/
structure Awaited (running : Option Tag) (w : Worker) : Prop where
  once : ∀ tag, tag ≠ .accept → w.alive tag = true → running ≠ some tag →
    w.outstanding.count tag = 1
  nothing : ∀ tag, tag ≠ .accept → w.alive tag = false ∨ running = some tag →
    w.outstanding.count tag = 0
  freshConn : ∀ i, w.connCount ≤ i → (w.conns i).inLoop = false
  freshSend : ∀ k, w.sendCount ≤ k → (w.sends k).suspended = false

variable {w w' : Worker} {running running' : Option Tag}

/-- A coroutine with a request outstanding is alive, and not running. -/
theorem Awaited.alive_of_mem (h : w.Awaited running) {tag : Tag} (hne : tag ≠ .accept)
    (hmem : tag ∈ w.outstanding) : w.alive tag = true ∧ running ≠ some tag := by
  by_contra hno
  refine List.count_eq_zero.mp (h.nothing tag hne ?_) hmem
  rw [not_and_or, Bool.not_eq_true, not_not] at hno
  exact hno

/-- **Only one coroutine changes**: for the others the same requests are outstanding, they are alive
as before, and neither was or is running. -/
theorem Awaited.of_special (s : Tag) (h : w.Awaited running)
    (hothers : ∀ tag, tag ≠ s → tag ≠ .accept →
      w'.outstanding.count tag = w.outstanding.count tag ∧ w'.alive tag = w.alive tag ∧
        (running' = some tag ↔ running = some tag))
    (honce : s ≠ .accept → w'.alive s = true → running' ≠ some s → w'.outstanding.count s = 1)
    (hnothing : s ≠ .accept → w'.alive s = false ∨ running' = some s → w'.outstanding.count s = 0)
    (hconn : ∀ i, w'.connCount ≤ i → (w'.conns i).inLoop = false)
    (hsend : ∀ k, w'.sendCount ≤ k → (w'.sends k).suspended = false) : w'.Awaited running' := by
  refine ⟨fun tag hne halive hrun => ?_, fun tag hne hgone => ?_, hconn, hsend⟩
  · rcases eq_or_ne tag s with rfl | htag
    · exact honce hne halive hrun
    · obtain ⟨hcount, halive', hrun'⟩ := hothers tag htag hne
      rw [hcount]
      exact h.once tag hne (halive'.symm.trans halive) fun hr => hrun (hrun'.mpr hr)
  · rcases eq_or_ne tag s with rfl | htag
    · exact hnothing hne hgone
    · obtain ⟨hcount, halive', hrun'⟩ := hothers tag htag hne
      rw [hcount]
      exact h.nothing tag hne (hgone.imp (fun hdead => halive'.symm.trans hdead) hrun'.mp)

/-! ## The primitives -/

/-- Neither of the two is running when a third one is. -/
theorem running_iff_of_ne {s tag : Tag} (htag : tag ≠ s) : none = some tag ↔ some s = some tag :=
  iff_of_false (Option.some_ne_none tag).symm fun h => htag (Option.some.inj h).symm

theorem count_outstanding_sq (w : Worker) (request : Request) (tag : Tag) :
    { w with sq := w.sq ++ [request] }.outstanding.count tag
      = w.outstanding.count tag + if request.tag = tag then 1 else 0 := by
  rw [count_outstanding, count_outstanding, List.map_append, List.count_append, List.map_singleton,
    List.count_singleton]
  simp only [beq_iff_eq]
  omega

/-- A completion that is taken from the queue leaves its coroutine running. -/
theorem Awaited.cqeSeen (h : w.Awaited none) {c : Completion} {cq : List Completion}
    (hcq : w.cq = c :: cq) (left : ℕ) : (w.cqeSeen cq left).Awaited (some c.tag) := by
  have hcount : ∀ tag, w.outstanding.count tag
      = (w.cqeSeen cq left).outstanding.count tag + if c.tag = tag then 1 else 0 := fun tag => by
    rw [count_outstanding, count_outstanding, hcq, List.map_cons, List.count_cons]
    simp only [Worker.cqeSeen, beq_iff_eq]
    omega
  have hself := hcount c.tag
  rw [if_pos rfl] at hself
  refine h.of_special c.tag (fun tag htag hne => ?_) (fun _ _ hrun => absurd rfl hrun)
    (fun hne _ => ?_) h.freshConn h.freshSend
  · refine ⟨?_, rfl, (running_iff_of_ne htag).symm⟩
    have := hcount tag
    rw [if_neg (Ne.symm htag)] at this
    exact this.symm
  · -- the completion was the coroutine's one request
    have hmem : c.tag ∈ w.outstanding := List.count_pos_iff.mp (by omega)
    obtain ⟨halive, hrun⟩ := h.alive_of_mem hne hmem
    have := h.once c.tag hne halive hrun
    omega

/-- The accept coroutine is not counted, running or not. -/
theorem Awaited.of_accept (h : w.Awaited (some .accept)) : w.Awaited none :=
  h.of_special .accept (fun _ htag _ => ⟨rfl, rfl, running_iff_of_ne htag⟩)
    (fun hne => absurd rfl hne) (fun hne => absurd rfl hne) h.freshConn h.freshSend

/-- **A running coroutine that prepares its request suspends.** -/
theorem Awaited.prepare {tag : Tag} {request : Request} (h : w.Awaited (some tag))
    (halive : w.alive tag = true) (htag : request.tag = tag) (hok : w.prepare request = .ok w') :
    w'.Awaited none := by
  subst htag
  rw [prepare_eq_ok hok]
  refine h.of_special request.tag (fun tag htag hne => ?_) (fun hne _ _ => ?_)
    (fun hne hgone => ?_) h.freshConn h.freshSend
  · refine ⟨?_, rfl, running_iff_of_ne htag⟩
    rw [count_outstanding_sq, if_neg (Ne.symm htag), Nat.add_zero]
  · rw [count_outstanding_sq, if_pos rfl, h.nothing _ hne (Or.inr rfl)]
  · rcases hgone with hdead | hrun
    · exact absurd (halive.symm.trans hdead) (by decide)
    · cases hrun

/-- …and so does the accept coroutine, without being counted. -/
theorem Awaited.prepare_accept (h : w.Awaited running) (hok : w.prepare .accept = .ok w') :
    w'.Awaited running := by
  rw [prepare_eq_ok hok]
  refine h.of_special .accept (fun tag htag _ => ⟨?_, rfl, Iff.rfl⟩) (fun hne => absurd rfl hne)
    (fun hne => absurd rfl hne) h.freshConn h.freshSend
  rw [count_outstanding_sq]
  exact Nat.add_eq_left.mpr (if_neg (Ne.symm htag))

theorem alive_setRaw (conn : ℕ) (raw : Bytes) (tag : Tag) :
    (w.setRaw conn raw).alive tag = w.alive tag := by
  cases tag with
  | accept => rfl
  | recv i => exact inLoop_setRaw conn raw i
  | send k => rfl

theorem Awaited.setRaw (h : w.Awaited running) (conn : ℕ) (raw : Bytes) :
    (w.setRaw conn raw).Awaited running :=
  h.of_special .accept (fun tag _ _ => ⟨rfl, alive_setRaw conn raw tag, Iff.rfl⟩)
    (fun hne => absurd rfl hne) (fun hne => absurd rfl hne)
    (fun i hi => (inLoop_setRaw conn raw i).trans (h.freshConn i hi)) h.freshSend

/-- **A handler that leaves has nothing outstanding.** -/
theorem Awaited.leave {conn : ℕ} (h : w.Awaited (some (.recv conn))) :
    (w.leave conn).Awaited none := by
  have hself : (w.leave conn).alive (.recv conn) = false := by simp [alive, Worker.leave]
  have hother : ∀ i, i ≠ conn → (w.leave conn).conns i = w.conns i := fun i hi =>
    Function.update_of_ne hi _ _
  refine h.of_special (.recv conn) (fun tag htag _ => ⟨rfl, ?_, running_iff_of_ne htag⟩)
    (fun _ halive => absurd (halive.symm.trans hself) (by decide))
    (fun hne _ => h.nothing _ hne (Or.inr rfl)) (fun i hi => ?_) h.freshSend
  · cases tag with
    | accept => rfl
    | recv i => exact congrArg Connection.inLoop (hother i fun hi => htag (hi ▸ rfl))
    | send k => rfl
  · rcases eq_or_ne i conn with rfl | hne
    · exact hself
    · rw [hother i hne]
      exact h.freshConn i hi

/-- **A new handler runs**, with nothing outstanding yet. -/
theorem Awaited.connect (h : w.Awaited none) (rawFileDescriptor : ℤ) :
    (w.connect rawFileDescriptor).Awaited (some (.recv w.connCount)) := by
  have hother : ∀ i, i ≠ w.connCount → (w.connect rawFileDescriptor).conns i = w.conns i :=
    fun i hi => Function.update_of_ne hi _ _
  refine h.of_special (.recv w.connCount)
    (fun tag htag _ => ⟨rfl, ?_, (running_iff_of_ne htag).symm⟩) (fun _ _ hrun => absurd rfl hrun)
    (fun hne _ => h.nothing _ hne (Or.inl (h.freshConn _ (Nat.le_refl _)))) (fun i hi => ?_)
    h.freshSend
  · cases tag with
    | accept => rfl
    | recv i => exact congrArg Connection.inLoop (hother i fun hi => htag (hi ▸ rfl))
    | send k => rfl
  · have hlt : w.connCount + 1 ≤ i := hi
    rw [hother i (by omega)]
    exact h.freshConn i (by omega)

theorem alive_setSend_of_ne {k : ℕ} (task : SendTask) {tag : Tag} (htag : tag ≠ .send k) :
    (w.setSend k task).alive tag = w.alive tag := by
  cases tag with
  | accept => rfl
  | recv i => rfl
  | send j =>
    have hj : j ≠ k := fun hj => htag (hj ▸ rfl)
    exact congrArg SendTask.suspended (Function.update_of_ne hj _ _)

/-- **A send coroutine that ends, or is destroyed, has nothing outstanding.** -/
theorem Awaited.endSend {k : ℕ} {task : SendTask} (h : w.Awaited (some (.send k)))
    (htask : task.suspended = false) : (w.setSend k task).Awaited none := by
  have hself : (w.setSend k task).alive (.send k) = false := by simpa [alive, setSend] using htask
  refine h.of_special (.send k)
    (fun tag htag _ => ⟨rfl, alive_setSend_of_ne task htag, running_iff_of_ne htag⟩)
    (fun _ halive => absurd (halive.symm.trans hself) (by decide))
    (fun hne _ => h.nothing _ hne (Or.inr rfl)) h.freshConn (fun j hj => ?_)
  rcases eq_or_ne j k with rfl | hne
  · exact hself
  · exact (alive_setSend_of_ne task fun heq : Tag.send j = .send k => hne (Tag.send.inj heq)).trans
      (h.freshSend j hj)

/-- **A send coroutine that goes round runs on.** -/
theorem Awaited.keepSend (h : w.Awaited running) (k : ℕ) (task : SendTask)
    (htask : task.suspended = (w.sends k).suspended) : (w.setSend k task).Awaited running := by
  have halive : ∀ tag, (w.setSend k task).alive tag = w.alive tag := fun tag => by
    rcases eq_or_ne tag (.send k) with rfl | htag
    · simpa [alive, setSend] using htask
    · exact alive_setSend_of_ne task htag
  exact h.of_special .accept (fun tag _ _ => ⟨rfl, halive tag, Iff.rfl⟩) (fun hne => absurd rfl hne)
    (fun hne => absurd rfl hne) h.freshConn fun j hj => (halive (.send j)).trans (h.freshSend j hj)

/-! ## The coroutines -/

/-- **A response's send coroutine suspends on its first request, or ends at once.** -/
theorem Awaited.send {conn : ℕ} {message : Bytes} (h : w.Awaited running)
    (hrun : ∀ k, running ≠ some (.send k)) (hok : w.send conn message = .ok w') :
    w'.Awaited running := by
  have hfresh : w.outstanding.count (.send w.sendCount) = 0 :=
    h.nothing _ (by simp) (Or.inl (h.freshSend _ (Nat.le_refl _)))
  have hother : ∀ (task : SendTask) (tag : Tag), tag ≠ .send w.sendCount →
      (w.startSend task).alive tag = w.alive tag := fun task tag htag =>
    alive_setSend_of_ne task htag
  have hsend : ∀ (task : SendTask) (j : ℕ), w.sendCount + 1 ≤ j →
      ((w.startSend task).sends j).suspended = false := fun task j hj =>
    (hother task (.send j) fun hj' => by cases hj'; omega).trans (h.freshSend j (by omega))
  rcases send_eq_ok hok with ⟨-, rfl⟩ | ⟨-, rfl⟩
  · refine h.of_special (.send w.sendCount) (fun tag htag _ => ⟨?_, hother _ tag htag, Iff.rfl⟩)
      (fun _ _ _ => ?_) (fun _ hgone => ?_) h.freshConn (hsend _)
    · exact (count_outstanding_sq _ _ tag).trans (Nat.add_eq_left.mpr (if_neg (Ne.symm htag)))
    · exact (count_outstanding_sq _ _ _).trans (congrArg₂ _ hfresh (if_pos rfl))
    · rcases hgone with hdead | hrun'
      · simp [alive, startSend] at hdead
      · exact absurd hrun' (hrun _)
  · refine h.of_special (.send w.sendCount) (fun tag htag _ => ⟨rfl, hother _ tag htag, Iff.rfl⟩)
      (fun _ halive => ?_) (fun _ _ => hfresh) h.freshConn (hsend _)
    simp [alive, startSend] at halive

/-- **…and so do all of a handler's responses.** -/
theorem Awaited.serve {conn : ℕ} {replies : List Bytes} (h : w.Awaited running)
    (hrun : ∀ k, running ≠ some (.send k)) (hok : w.serve conn replies = .ok w') :
    w'.Awaited running := by
  induction replies generalizing w with
  | nil => exact Except.ok.inj hok ▸ h
  | cons message replies ih =>
    obtain ⟨w₁, hsend, hrest⟩ := bind_eq_ok hok
    exact ih (h.send hrun hsend) hrest

/-- **A dispatched completion leaves every coroutine suspended.** -/
theorem Awaited.dispatch {replies : List Bytes} {c : Completion} (h : w.Awaited (some c.tag))
    (hok : w.dispatch replies c = .ok w') : w'.Awaited none := by
  obtain ⟨halive, hresumed⟩ := resumed_of_dispatch hok
  have harmed : ∀ {more : Bool} {w₁ : Worker}, w.Awaited (some .accept) → Armed w more w₁ →
      w₁.Awaited none := by
    intro more w₁ h harm
    cases harm with
    | still => exact h.of_accept
    | again hok => exact h.of_accept.prepare_accept hok
  cases hresumed with
  | acceptDestroyed =>
    refine h.of_special .accept (fun tag htag hne => ⟨rfl, ?_, running_iff_of_ne htag⟩)
      (fun hne => absurd rfl hne) (fun hne => absurd rfl hne) h.freshConn h.freshSend
    cases tag with
    | accept => exact absurd rfl hne
    | recv i => rfl
    | send k => rfl
  | acceptFailed harm => exact harmed h harm
  | connected harm hres hrecv =>
    refine ((harmed h harm).connect _).prepare ?_ rfl hrecv
    simp [alive, Worker.connect]
  | left hres => exact h.leave
  | @kept conn res packet raw w' hpos hparse hrecv =>
    refine Awaited.prepare (h.setRaw conn raw) ?_ rfl hrecv
    exact (inLoop_setRaw conn raw conn).trans halive
  | @served conn res packet raw request w₁ w' hpos hparse hserve hrecv =>
    refine Awaited.prepare ((h.setRaw conn raw).serve (fun k hk => by cases hk) hserve) ?_ rfl hrecv
    refine (congrArg (fun conns => (conns conn).inLoop) (conns_of_serve hserve)).trans ?_
    exact (inLoop_setRaw conn raw conn).trans halive
  | sendDestroyed => exact h.endSend rfl
  | sendEnded => exact h.endSend rfl
  | @sendAgain k offset res w' htime hresumed hok =>
    refine Awaited.prepare (h.keepSend k _ (by exact rfl)) ?_ rfl hok
    simpa [alive, setSend, Completion.tag] using halive

/-! ## Whole runs -/

/-- A completion the kernel posts stands in the request's place. -/
theorem count_outstanding_post {j : ℕ} {f : InFlight} {c : Completion} (hj : w.kernel[j]? = some f)
    (htag : c.tag = f.request.tag) (tag : Tag) :
    (w.post j c).outstanding.count tag = w.outstanding.count tag := by
  obtain ⟨hlt, rfl⟩ := List.getElem?_eq_some_iff.mp hj
  have hperm := (List.getElem_cons_eraseIdx_perm hlt).map fun f => f.request.tag
  rw [count_outstanding, count_outstanding, ← hperm.count_eq, List.map_cons, List.count_cons]
  simp only [Worker.post, List.map_append, List.count_append, List.map_singleton,
    List.count_singleton, htag]
  omega

/-- An invariant of who is alive and what is outstanding. -/
theorem Awaited.congr (h : w.Awaited running)
    (hcount : ∀ tag, tag ≠ .accept → w'.outstanding.count tag = w.outstanding.count tag)
    (hconns : w'.conns = w.conns) (hconnCount : w'.connCount = w.connCount)
    (hsends : ∀ k, (w'.sends k).suspended = (w.sends k).suspended)
    (hsendCount : w'.sendCount = w.sendCount) : w'.Awaited running := by
  refine h.of_special .accept (fun tag _ hne => ⟨hcount tag hne, ?_, Iff.rfl⟩)
    (fun hne => absurd rfl hne) (fun hne => absurd rfl hne) (fun i hi => ?_) fun k hk => ?_
  · cases tag with
    | accept => exact absurd rfl hne
    | recv i => exact congrArg (fun conns => (conns i).inLoop) hconns
    | send k => exact hsends k
  · rw [hconns]
    exact h.freshConn i (hconnCount ▸ hi)
  · rw [hsends]
    exact h.freshSend k (hsendCount ▸ hk)

theorem Awaited.step {a : WorkerAction} (h : w.Awaited none) (hst : w.step a = some w') :
    w'.Awaited none := by
  obtain ⟨-, hstepped⟩ := stepped_of_step hst
  cases hstepped with
  | submit hloop =>
    refine h.congr (fun tag _ => ?_) rfl rfl (fun _ => rfl) rfl
    have hsq : (w.sq.map w.resolve).map (fun f => f.request.tag) = w.sq.map Request.tag :=
      List.map_map
    rw [count_outstanding, count_outstanding]
    simp only [List.map_append, List.count_append, List.map_nil, List.count_nil, hsq]
    omega
  | collect => exact h.congr (fun _ _ => rfl) rfl rfl (fun _ => rfl) rfl
  | @dispatch replies left c cq t hloop hcq hok => exact (h.cqeSeen hcq left).dispatch hok
  | fault => exact h.congr (fun _ _ => rfl) rfl rfl (fun _ => rfl) rfl
  | @completeAccept j res more target hj hroom hfds =>
    refine h.congr (fun tag hne => ?_) rfl rfl (fun _ => rfl) rfl
    cases more with
    | false => exact count_outstanding_post (c := .accept res false) hj rfl tag
    | true =>
      rw [count_outstanding, count_outstanding]
      simp only [Worker.completeAccept, if_true, List.map_append, List.count_append,
        List.map_singleton, Completion.tag]
      rw [List.count_singleton, if_neg fun hbeq => hne (beq_iff_eq.mp hbeq).symm]
      rfl
  | completeRecv hj hroom hanswer =>
    exact h.congr (fun tag _ => count_outstanding_post hj rfl tag) rfl rfl (fun _ => rfl) rfl
  | @completeSend j k offset length res fd bytes target hj hroom hanswer =>
    have hkept := h.keepSend k { w.sends k with put := (w.sends k).put + bytes.length } rfl
    refine hkept.congr (fun tag _ => ?_) rfl rfl (fun _ => rfl) rfl
    exact count_outstanding_post (w := w.transmit k target bytes) hj rfl tag

end Worker

theorem awaited_init : Worker.Awaited none workerSystem.init where
  once tag hne halive := by cases tag <;> first | exact absurd rfl hne | cases halive
  nothing tag hne _ := by cases tag <;> first | exact absurd rfl hne | rfl
  freshConn _ _ := rfl
  freshSend _ _ := rfl

/-- **In every state of every run each handler and each send coroutine alive has one request
outstanding**, and no request names a dead one. -/
theorem awaited_of_visited (run : List WorkerAction) :
    ∀ w ∈ workerSystem.visited run, w.Awaited none :=
  System.forall_visited (Worker.Awaited none) awaited_init (fun _ _ _ hw hst => hw.step hst) run

end YServer
