import Xyco.Machine.Pool
import Xyco.Runtime.Proofs.RunQueueOrderProofs

/-!
# Proofs: the run queue as a pool

Seen from one queue, a worker takes the last entry, has it as its job until it has resumed or refused
it, and is idle otherwise. The mutex, `try_lock` and the other queues cannot be seen: each step is one
of `Pool`, or nothing.
-/

namespace Xyco.Runtime.RunQueue

open Machine Table

variable {handleOf : ℕ → ℕ} {s s' : RunQueue} {a : QueueAction} {w q r n : ℕ} {ok : Bool}
variable {x y : LoopWorker} {h h' : Handles} {entry : QueueEntry}

/-- The queue `q` and the workers that serve it. -/
def pool (s : RunQueue) (q : ℕ) : Pool QueueEntry QueueEntry where
  queue := s.entriesOf q
  workers := s.workers.map fun x => x.point.job q

theorem pool_init (n q : ℕ) : (init n).pool q = ⟨[], List.replicate n none⟩ := by
  have hentries : (init n).entriesOf q = [] := by
    unfold entriesOf
    cases hq : (init n).queues[q]? with
    | none => rfl
    | some h =>
      obtain rfl := List.eq_of_mem_replicate (List.mem_of_getElem? hq)
      rfl
  rw [pool, hentries, init, List.map_replicate]
  rfl

theorem pool_worker (hx : s.workers[w]? = some x) (q : ℕ) :
    (s.pool q).workers[w]? = some (x.point.job q) := by
  simp only [pool, List.getElem?_map, hx, Option.map_some]

/-- A worker moves on without an entry, and the entries stay as they are. -/
theorem pool_finish (hworkers : s'.workers = s.workers.set w y)
    (hentries : s'.entriesOf q = s.entriesOf q) (hidle : y.point.job q = none) :
    Pool.step id (s.pool q) (.finish w) = some (s'.pool q) := by
  simp only [Pool.step, Pool.assign, pool, hworkers, hentries, List.map_set, hidle]

theorem pool_same (hx : s.workers[w]? = some x) (hworkers : s'.workers = s.workers.set w y)
    (hentries : s'.entriesOf q = s.entriesOf q) (hjob : y.point.job q = x.point.job q) :
    s'.pool q = s.pool q := by
  have hset := set_same (pool_worker hx q)
  simp only [pool] at hset
  simp only [pool, hworkers, hentries, List.map_set, hjob, hset]

theorem enqueue_pool (hstep : s.enqueue r entry = some s') (q : ℕ) :
    s'.pool q = s.pool q ∨ ∃ b, Pool.step id (s.pool q) b = some (s'.pool q) := by
  obtain ⟨h, hr, -, rfl⟩ := enqueue_cases hstep
  have hentries := entriesOf_set (s := s) hr (t := s.setQueue r
    { h with entries := entry :: h.entries, enqueued := h.enqueued ++ [entry] }) rfl q
  by_cases hqr : q = r
  · subst hqr
    refine Or.inr ⟨.push entry, ?_⟩
    rw [if_pos rfl] at hentries
    simp only [Pool.step, Pool.push, pool, hentries, entriesOf_eq hr]
    rfl
  · rw [if_neg hqr] at hentries
    refine Or.inl ?_
    simp only [pool, hentries]
    rfl

theorem take_pool (hf : Fifo s) (hx : s.workers[w]? = some x) (hpx : x.point = .pop r entry)
    (hr : s.queues[r]? = some h)
    (hworkers : s'.workers = s.workers.set w { x with point := .poll r h.taken.length entry })
    (hqueues : s'.queues = s.queues.set r h') (hentries : h'.entries = h.entries.dropLast) (q : ℕ) :
    s'.pool q = s.pool q ∨ ∃ b, Pool.step id (s.pool q) b = some (s'.pool q) := by
  have hidle : x.point.job q = none := by
    rw [hpx]
    rfl
  have hset := entriesOf_set hr hqueues q
  by_cases hqr : q = r
  · subst hqr
    have hworker := pool_worker hx q
    have hlast := hf.last w x hx q entry hpx
    rw [hidle] at hworker
    rw [if_pos rfl, hentries, ← entriesOf_eq hr] at hset
    have hjob : LoopPoint.job q (.poll q h.taken.length entry) = some entry := if_pos rfl
    refine Or.inr ⟨.take w, ?_⟩
    simp only [pool] at hworker
    simp only [Pool.step, Pool.take, pool, hworker, hlast, hset, hworkers, List.map_set, hjob, id]
  · rw [if_neg hqr] at hset
    refine Or.inl (pool_same hx hworkers hset ?_)
    rw [hidle]
    exact if_neg (Ne.symm hqr)

theorem turn_pool (hf : Fifo s) (hx : s.workers[w]? = some x) (hturn : Turn s w x ok s') (q : ℕ) :
    s'.pool q = s.pool q ∨ ∃ b, Pool.step id (s.pool q) b = some (s'.pool q) := by
  cases hturn with
  | move _ _ hidle => exact Or.inr ⟨.finish w, pool_finish (by rfl) (by rfl) (hidle q)⟩
  | lock hpx hr _ =>
    refine Or.inr ⟨.finish w, pool_finish (by rfl) ?_ rfl⟩
    exact entriesOf_same hr (by rfl) (by rfl) q
  | read hpx _ _ =>
    refine Or.inl (pool_same hx rfl rfl ?_)
    rw [hpx]
    rfl
  | unlock hpx hr =>
    refine Or.inr ⟨.finish w, pool_finish (by rfl) ?_ rfl⟩
    exact entriesOf_same hr (by rfl) (by rfl) q
  | take hpx hr => exact take_pool hf hx hpx hr rfl rfl rfl q
  | resume hpx _ =>
    refine Or.inl (pool_same hx rfl rfl ?_)
    rw [hpx]
    rfl
  | refuse hpx _ => exact Or.inr ⟨.finish w, pool_finish (by rfl) (by rfl) rfl⟩

theorem step_pool (hf : Fifo s) (hstep : s.step handleOf a = some s') (q : ℕ) :
    s'.pool q = s.pool q ∨ ∃ b, Pool.step id (s.pool q) b = some (s'.pool q) := by
  obtain rfl | ⟨r, entry, henqueue⟩ | ⟨w, x, ok, hx, hturn⟩ | ⟨w, x, y, hx, rfl, hp⟩ :=
    step_cases hstep
  · exact Or.inl rfl
  · exact enqueue_pool henqueue q
  · exact turn_pool hf hx hturn q
  · refine Or.inl (pool_same hx rfl rfl ?_)
    rcases hp with hp | ⟨hpx, hpy⟩
    · rw [hp]
    · rw [hpx, hpy]
      rfl

/-- What a queue and its workers do is what a pool does. -/
theorem run_queue_refines_pool (hreach : Reachable (step handleOf) (init n) s) (q : ℕ) :
    Reachable (Pool.step id) ⟨[], List.replicate n none⟩ (s.pool q) := by
  have hinv := hreach.invariant
    (I := fun s => (Guarded s ∧ Fifo s) ∧ Reachable (Pool.step id) ((init n).pool q) (s.pool q))
    ⟨⟨guarded_init, fifo_init⟩, Reachable.refl _⟩ fun s a t hs hstep => by
      obtain ⟨⟨hg, hf⟩, hpool⟩ := hs
      refine ⟨⟨step_guarded hg hstep, step_fifo hg hf hstep⟩, ?_⟩
      rcases step_pool hf hstep q with heq | ⟨b, hb⟩
      · rw [heq]
        exact hpool
      · exact hpool.tail hb
  rw [← pool_init]
  exact hinv.2

end Xyco.Runtime.RunQueue
