import Xyco.Machine.Run
import Xyco.Machine.Table

/-!
# The run queue

`handles_` of `RuntimeCore` is shared by all workers, and each `Worker` has one of its own. Entries go
in at the front, from any thread; a worker takes them at the back. A step is a section under the mutex
of a queue, or what a worker does between two points where another thread may come in: the read of
the last entry and its removal are two steps, kept together by the mutex alone.

What a coroutine does when it is resumed is up to the run: entries may be added, by it or by another
thread, and `suspend_flag_` may be set, at any time.
-/

namespace Xyco.Runtime

/-- An entry of `handles_`: a coroutine, and the `Future` object that it awaits. -/
structure QueueEntry where
  handle : ℕ
  future : Option ℕ
deriving DecidableEq, Repr

/-- `handles_` and `handle_mutex_`. `enqueued` has all entries that were put in, and `taken` those
that were taken out with the worker that took them, in order. -/
structure Handles where
  entries : List QueueEntry
  lock : Option ℕ
  enqueued : List QueueEntry
  taken : List (ℕ × QueueEntry)
deriving DecidableEq, Repr

/-- Where a thread is in `Worker::run_in_place`. The queue `q` is 0 for that of `RuntimeCore`. -/
inductive LoopPoint where
  /-- before the test of `suspend_flag_` in `run_in_place` -/
  | head
  /-- before `try_to_lock` -/
  | tryLock (q : ℕ)
  /-- has the mutex, before the test of the loop -/
  | drain (q : ℕ)
  /-- has the mutex and has read `back()`, before `pop_back()` -/
  | pop (q : ℕ) (entry : QueueEntry)
  /-- before `poll_wrapper`, with the entry number `i` of `taken` -/
  | poll (q i : ℕ) (entry : QueueEntry)
  /-- in `handle.resume()` -/
  | resume (q : ℕ) (entry : QueueEntry)
  /-- before the mutex is locked again -/
  | relock (q : ℕ)
  /-- before the test of `suspend_flag_` that follows the loop -/
  | check (q : ℕ)
  /-- in `Driver::poll` -/
  | drive
  | stopped
deriving DecidableEq, Repr

namespace LoopPoint

/-- The worker is in `poll_wrapper`, `handle.resume()` or `Driver::poll`, that is, in code that is not
part of its loop. -/
def calls : LoopPoint → Bool
  | .poll _ _ entry => entry.future.isSome
  | .resume _ _ | .drive => true
  | _ => false

/-- The next step resumes the coroutine, with the result `ok` of `poll_wrapper`. -/
def resumes (ok : Bool) : LoopPoint → Bool
  | .poll _ _ entry => entry.future.isNone || ok
  | _ => false

end LoopPoint

structure LoopWorker where
  suspendFlag : Bool
  point : LoopPoint
deriving DecidableEq, Repr

/-- The queues, that of `RuntimeCore` first and then those of the workers, and the workers. `resumed`
has the entries that were resumed and `refused` those whose `poll_wrapper` returned false, each as the
number of its queue and its number in `taken`. -/
structure RunQueue where
  queues : List Handles
  workers : List LoopWorker
  resumed : List (ℕ × ℕ)
  refused : List (ℕ × ℕ)
deriving DecidableEq, Repr

inductive QueueAction where
  | spawnImpl (handle : Option ℕ)
  | registerFuture (future : ℕ)
  | wake (future : ℕ)
  | wakeLocal (w future : ℕ)
  | suspend (w : ℕ)
  | start (w : ℕ)
  | worker (w : ℕ) (ok : Bool)
deriving DecidableEq, Repr

namespace RunQueue

def init (workers : ℕ) : RunQueue where
  queues := List.replicate (workers + 1) ⟨[], none, [], []⟩
  workers := List.replicate workers ⟨false, .head⟩
  resumed := []
  refused := []

def setQueue (s : RunQueue) (q : ℕ) (h : Handles) : RunQueue :=
  { s with queues := s.queues.set q h }

def goTo (s : RunQueue) (w : ℕ) (x : LoopWorker) (p : LoopPoint) : RunQueue :=
  { s with workers := s.workers.set w { x with point := p } }

/-- `emplace` at the front, under the mutex. -/
def enqueue (s : RunQueue) (q : ℕ) (entry : QueueEntry) : Option RunQueue :=
  match s.queues[q]? with
  | none => none
  | some h =>
    if h.lock = none then
      some (s.setQueue q
        { h with entries := entry :: h.entries, enqueued := h.enqueued ++ [entry] })
    else none

/-- `spawn_impl`, of a coroutine with or without a handle. -/
def spawnImpl (s : RunQueue) : Option ℕ → Option RunQueue
  | some handle => s.enqueue 0 ⟨handle, none⟩
  | none => some s

/-- A worker goes on from one point to the next. `ok` is the result of `poll_wrapper`; it also says
whether `try_lock` of a free mutex succeeds. -/
def runWorker (s : RunQueue) (w : ℕ) (ok : Bool) : Option RunQueue :=
  match s.workers[w]? with
  | none => none
  | some x =>
    match x.point with
    | .head =>
      if x.suspendFlag then some (s.goTo w { x with suspendFlag := false } .stopped)
      else some (s.goTo w x (.tryLock (w + 1)))
    | .tryLock q =>
      match s.queues[q]? with
      | none => none
      | some h =>
        if h.lock = none ∧ ok = true then
          some ((s.setQueue q { h with lock := some w }).goTo w x (.drain q))
        else some (s.goTo w x (.check q))
    | .drain q =>
      match s.queues[q]? with
      | none => none
      | some h =>
        match x.suspendFlag, h.entries.getLast? with
        | false, some entry => some (s.goTo w x (.pop q entry))
        | _, _ => some ((s.setQueue q { h with lock := none }).goTo w x (.check q))
    | .pop q entry =>
      match s.queues[q]? with
      | none => none
      | some h =>
        some ((s.setQueue q
          { h with
            entries := h.entries.dropLast
            lock := none
            taken := h.taken ++ [(w, entry)] }).goTo w x (.poll q h.taken.length entry))
    | .poll q i entry =>
      if entry.future = none ∨ ok = true then
        some ({ s with resumed := s.resumed ++ [(q, i)] }.goTo w x (.resume q entry))
      else some ({ s with refused := s.refused ++ [(q, i)] }.goTo w x (.relock q))
    | .resume q _ => some (s.goTo w x (.relock q))
    | .relock q =>
      match s.queues[q]? with
      | none => none
      | some h =>
        if h.lock = none then
          some ((s.setQueue q { h with lock := some w }).goTo w x (.drain q))
        else none
    | .check q =>
      if x.suspendFlag then some (s.goTo w x .head)
      else if q = 0 then some (s.goTo w x .drive)
      else some (s.goTo w x (.tryLock 0))
    | .drive => some (s.goTo w x .head)
    | .stopped => none

/-- `Worker::suspend`. -/
def suspend (s : RunQueue) (w : ℕ) : Option RunQueue :=
  match s.workers[w]? with
  | none => none
  | some x => some { s with workers := s.workers.set w { x with suspendFlag := true } }

/-- `run_in_place` is called again. -/
def start (s : RunQueue) (w : ℕ) : Option RunQueue :=
  match s.workers[w]? with
  | none => none
  | some x => if x.point = .stopped then some (s.goTo w x .head) else none

variable (handleOf : ℕ → ℕ)

/-- `handleOf` is `get_handle` of a `Future` object; that of `wake` was in `future_` of an event. -/
def step (s : RunQueue) : QueueAction → Option RunQueue
  | .spawnImpl handle => s.spawnImpl handle
  | .registerFuture f => s.enqueue 0 ⟨handleOf f, some f⟩
  | .wake f => s.enqueue 0 ⟨handleOf f, some f⟩
  | .wakeLocal w f => s.enqueue (w + 1) ⟨handleOf f, some f⟩
  | .suspend w => s.suspend w
  | .start w => s.start w
  | .worker w ok => s.runWorker w ok

/-! ## The end of the workers -/

/-- `~RuntimeCore` has called `suspend` on every worker, and some may have left `run_in_place`
since. -/
def Halting (s : RunQueue) : Prop := ∀ x ∈ s.workers, x.suspendFlag = true ∨ x.point = .stopped

instance (s : RunQueue) : Decidable s.Halting := inferInstanceAs (Decidable (∀ x ∈ s.workers, _))

/-- All workers have left `run_in_place`, so that `join` returns for each of them. -/
def Joinable (s : RunQueue) : Prop := ∀ x ∈ s.workers, x.point = .stopped

instance (s : RunQueue) : Decidable s.Joinable := inferInstanceAs (Decidable (∀ x ∈ s.workers, _))

def isWorker : QueueAction → Bool
  | .worker _ _ => true
  | _ => false

def isStart : QueueAction → Bool
  | .start _ => true
  | _ => false

/-- The steps of the worker `w` in its loop. -/
def isTurnOf (w : ℕ) : QueueAction → Bool
  | .worker v _ => decide (v = w)
  | _ => false

/-- The worker `w` finds that the entry it has taken can be resumed. -/
def resumes (w : ℕ) (s : RunQueue) : QueueAction → Bool
  | .worker v ok => decide (v = w) && s.workers[v]?.any fun x => x.point.resumes ok
  | _ => false

end RunQueue

end Xyco.Runtime
