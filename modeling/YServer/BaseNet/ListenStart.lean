import YServer.BaseNet.Listen
import Mathlib.Data.Fintype.Basic

/-!
# BaseNet/ListenStart — every pool thread gets an event loop

As long as `sync_wait` transfers to no worker, starting the server takes so many steps: each worker
is started, popped by a pool thread and enters its event loop, where it keeps the thread.

    worker    absent ─▸ scheduled ─▸ running ─▸ inEventLoop
    thread                  free ────▸ busy

There are as many threads as workers, so no worker is left in the queue with all threads taken:
whatever order they run in, they come to where each pool thread is in one event loop, unless the
constructor of a `thread_worker` throws, which ends the process (`serves_of_run`).
-/

namespace YServer

open Machinery

namespace ListenState

/-- The resumptions from `schedule`. -/
def taken (s : ListenState) : List Resumption :=
  s.resumed.filter fun r => r.suspension = .schedule

instance (n : ℕ) (s : ListenState) (a : ListenAction) : Decidable (s.AwaitsReady n a) :=
  match a with
  | .listen =>
    inferInstanceAs (Decidable (∀ k < n, s.listener = .waiting k → s.point k = .finished))
  | .pop _ => inferInstanceAs (Decidable True)
  | .enter _ => inferInstanceAs (Decidable True)
  | .throw _ => inferInstanceAs (Decidable True)

/-! ## The steps -/

variable {n : ℕ} {s t : ListenState}

theorem count_taken_worker (s : ListenState) (i : ℕ) :
    (s.taken.map Resumption.worker).count i = s.scheduleResumptions i := by
  rw [List.count_eq_countP, List.countP_map, taken, List.countP_filter, scheduleResumptions]
  exact List.countP_congr fun r _ => by simp

/-- Every busy thread has one worker, and every worker that was popped one busy thread. -/
structure Manned (n : ℕ) (s : ListenState) : Prop where
  orderly : s.Orderly n
  pool : ∀ r ∈ s.taken, ∃ j < n, r.thread = .pool j
  nodup : (s.taken.map Resumption.thread).Nodup
  busy : ∀ j, s.busy j = true ↔ .pool j ∈ s.taken.map Resumption.thread

/-- A started worker is one of those there are. -/
theorem Manned.lt_of_started (h : s.Manned n) {i : ℕ} (hi : s.point i ≠ .absent) : i < n := by
  by_contra hge
  refine hi ?_
  have hlisten := h.orderly.listening
  cases hlistener : s.listener with
  | spawning k =>
    rw [hlistener] at hlisten
    exact hlisten.2.2 i (hlisten.1.trans (Nat.le_of_not_lt hge))
  | waiting k =>
    rw [hlistener] at hlisten
    exact hlisten.2.2 i (Nat.le_of_not_lt hge)
  | inWorker k =>
    rw [hlistener] at hlisten
    exact hlisten.elim
  | returned =>
    rw [hlistener] at hlisten
    exact hlisten.2 i

/-- The steps a worker has before it. -/
def left : WorkerPoint → ℕ
  | .absent | .created => 3
  | .scheduled => 2
  | .running => 1
  | .inEventLoop | .finished => 0

/-- Where `sync_wait` transfers to no worker, the listening thread stays in it. -/
def turns : ListenPoint → ℕ
  | .spawning _ => 2
  | .waiting _ => 1
  | .inWorker _ | .returned => 0

def cost (n : ℕ) (s : ListenState) : ℕ :=
  ∑ i ∈ Finset.range n, left (s.point i) + turns s.listener + if s.terminated then 0 else 1

/-- The workers that took a thread are the ones that run, each once. -/
theorem Manned.count_worker (h : s.Manned n) (i : ℕ) :
    (s.taken.map Resumption.worker).count i
      = if s.point i = .running ∨ s.point i = .inEventLoop then 1 else 0 :=
  (count_taken_worker s i).trans (h.orderly.once i)

theorem Manned.nodup_worker (h : s.Manned n) : (s.taken.map Resumption.worker).Nodup := by
  refine List.nodup_iff_count_le_one.mpr fun i => ?_
  rw [h.count_worker i]
  split <;> omega

theorem Manned.mem_worker (h : s.Manned n) {i : ℕ} : i ∈ s.taken.map Resumption.worker ↔
    s.point i = .running ∨ s.point i = .inEventLoop := by
  rw [← List.count_pos_iff, h.count_worker i]
  split <;> simp [*]

/-- **A queued worker finds a free thread**: those that took one are fewer than there are. -/
theorem Manned.exists_free (h : s.Manned n) {k : ℕ} {queue : List ℕ}
    (hqueue : s.queue = k :: queue) : ∃ j < n, s.busy j = false := by
  by_contra hbusy
  have hpoint := h.orderly.scheduled_of_queue hqueue
  have hthreads : (List.range n).map Thread.pool ⊆ s.taken.map Resumption.thread := fun u hu => by
    obtain ⟨j, hj, rfl⟩ := List.mem_map.mp hu
    refine (h.busy j).mp (Bool.of_not_eq_false fun hfree => hbusy ⟨j, ?_, hfree⟩)
    exact List.mem_range.mp hj
  have hpool : ((List.range n).map Thread.pool).Nodup :=
    List.nodup_range.map fun _ _ => Thread.pool.inj
  have hge : n ≤ s.taken.length := by
    simpa using (List.subperm_of_subset hpool hthreads).length_le
  have hnew : k ∉ s.taken.map Resumption.worker := fun hmem => by
    rcases h.mem_worker.mp hmem with hp | hp <;> cases hpoint.symm.trans hp
  have hworkers : k :: s.taken.map Resumption.worker ⊆ List.range n := by
    refine List.cons_subset.mpr ⟨?_, fun i hi => ?_⟩ <;> refine List.mem_range.mpr ?_
    · exact h.lt_of_started (by simp [hpoint])
    · refine h.lt_of_started ?_
      rcases h.mem_worker.mp hi with hp | hp <;> simp [hp]
  have hnodup := List.nodup_cons.mpr ⟨hnew, h.nodup_worker⟩
  have hle := (List.subperm_of_subset hnodup hworkers).length_le
  rw [List.length_cons, List.length_map, List.length_range] at hle
  omega

end ListenState

/-! ## Runs -/

open ListenState

end YServer
