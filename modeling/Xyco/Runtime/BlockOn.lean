import Xyco.Runtime.Future
import Xyco.Runtime.RunQueue

/-!
# `block_on`

`Runtime::block_on` spawns a coroutine, `blocking_future`, that awaits the future, writes its value to
a variable of the call and calls `suspend` on the in-place worker. The calling thread meanwhile runs
`run_in_place` of that worker. When the loop ends, the call returns what is in the variable.

The in-place worker is worker 0 of the run queue, and any worker may run `blocking_future`. An
exception that a coroutine does not catch comes out of `spawn_with_exception_handling`, whose promise
has no `future_` any more. Where it goes from there depends on the turn of the worker:

* If an `await_suspend` is on the stack, because a coroutine has awaited an async function in this
  turn, the exception comes out of its `resume` and is thrown again in the coroutine that awaits. That
  one is over, and the process ends. The first turn of a spawned coroutine is always of this kind.
* Otherwise it comes out of `resume` in the run loop. On the in-place worker it leaves `block_on`, on
  another one it leaves the function of the thread, and the process ends.
-/

namespace Xyco.Runtime

variable {V E : Type*}

/-- A call of `block_on`: its variable `result`, and how it ended. -/
structure BlockOnCall (V E : Type*) where
  result : Option V
  outcome : Option (Except E V)
deriving DecidableEq, Repr

/-- Where `blocking_future` is. -/
inductive BlockingPoint where
  /-- before the end of `co_await future` -/
  | awaiting
  /-- has written `result`, before `suspend` -/
  | stored
  | over
deriving DecidableEq, Repr

/-- The future of a call has ended, on a worker. `nested` says that an `await_suspend` was on the
stack of that worker. -/
structure BlockOnEnd (V E : Type*) where
  call : ℕ
  worker : ℕ
  nested : Bool
  result : Except (Thrown E) V
deriving DecidableEq, Repr

/-- `coroutines` has the `blocking_future` of each call. `ended` has the futures that have been
awaited to the end. `fault` says that a variable of a call that is over was written, or that an empty
one was read, and `dead` that an exception has ended the process. -/
structure BlockOn (V E : Type*) where
  queue : RunQueue
  calls : List (BlockOnCall V E)
  coroutines : List BlockingPoint
  ended : List (BlockOnEnd V E)
  fault : Bool
  dead : Bool
deriving DecidableEq, Repr

inductive BlockOnAction (V E : Type*) where
  | blockOn
  /-- the future of the call `k` ends, and the worker `w` goes on in `blocking_future` -/
  | complete (w k : ℕ) (nested : Bool) (r : Except (Thrown E) V)
  /-- `blocking_future` of the call `k`, on the worker `w`, calls `suspend` -/
  | suspend (w k : ℕ)
  /-- an exception comes out of another coroutine on the worker `w`, or out of `Driver::poll` -/
  | throws (w : ℕ) (nested : Bool) (e : E)
  /-- `run_in_place` has ended, and `block_on` returns -/
  | returns
  /-- anything else that happens to the run queue -/
  | queue (a : QueueAction)
deriving DecidableEq, Repr

namespace BlockOn

/-- A runtime with its workers. The in-place worker is not in its loop. -/
def init (workers : ℕ) : BlockOn V E where
  queue := (RunQueue.init (workers + 1)).goTo 0 ⟨false, .head⟩ .stopped
  calls := []
  coroutines := []
  ended := []
  fault := false
  dead := false

def inPlaceWorker (s : BlockOn V E) : Option LoopWorker := s.queue.workers[0]?

/-- The call that is in progress: the last one, if it has not ended. -/
def current (s : BlockOn V E) : Option ℕ :=
  match s.calls.getLast? with
  | some call => if call.outcome.isNone then some (s.calls.length - 1) else none
  | none => none

/-- `block_on`, up to the loop of `run_in_place`. -/
def blockOn (s : BlockOn V E) : Option (BlockOn V E) :=
  if s.current = none then
    match s.queue.spawnImpl (some s.calls.length) with
    | some queue =>
      (queue.start 0).map fun queue =>
        { s with
          queue := queue
          calls := s.calls ++ [⟨none, none⟩]
          coroutines := s.coroutines ++ [.awaiting] }
    | none => none
  else none

/-- The worker `w` is running a coroutine. Without an `await_suspend` on the stack it has got there
from a `Future` object that was ready. -/
def resuming (s : BlockOn V E) (w : ℕ) (nested : Bool) : Bool :=
  s.queue.workers[w]?.any fun x =>
    match x.point with
    | .resume _ entry => nested || entry.future.isSome
    | _ => false

def driving (s : BlockOn V E) (w : ℕ) : Bool := s.queue.workers[w]?.any fun x => x.point = .drive

/-- An exception comes out of `spawn_with_exception_handling`, or out of `Driver::poll`, on the worker
`w`. -/
def escape (s : BlockOn V E) (w : ℕ) (nested : Bool) (e : E) : Option (BlockOn V E) :=
  if w = 0 ∧ nested = false then
    match s.inPlaceWorker, s.current with
    | some x, some j =>
      some { s with
        queue := s.queue.goTo 0 x .stopped
        calls := s.calls.modify j fun call => { call with outcome := some (.error e) } }
    | _, _ => none
  else some { s with dead := true }

/-- `result = co_await future`. -/
def store (s : BlockOn V E) (k : ℕ) (v : V) : BlockOn V E :=
  { s with
    calls := s.calls.modify k fun call => { call with result := some v }
    coroutines := s.coroutines.set k .stored
    fault := s.fault || s.calls[k]?.any fun call => call.outcome.isSome }

/-- The `co_await` of the `blocking_future` number `k` ends, with a value or an exception.
`spawn_with_exception_handling` stops a `CancelException`. -/
def complete (s : BlockOn V E) (w k : ℕ) (nested : Bool) (r : Except (Thrown E) V) :
    Option (BlockOn V E) :=
  if s.resuming w nested ∧ s.coroutines[k]? = some .awaiting then
    let s := { s with ended := s.ended ++ [BlockOnEnd.mk k w nested r] }
    match r with
    | .ok v => some (s.store k v)
    | .error .cancelException => some { s with coroutines := s.coroutines.set k .over }
    | .error (.other e) => { s with coroutines := s.coroutines.set k .over }.escape w nested e
  else none

/-- `core->in_place_worker().suspend()`. -/
def suspend (s : BlockOn V E) (w k : ℕ) : Option (BlockOn V E) :=
  if s.resuming w true ∧ s.coroutines[k]? = some .stored then
    (s.queue.suspend 0).map fun queue =>
      { s with queue := queue, coroutines := s.coroutines.set k .over }
  else none

def throws (s : BlockOn V E) (w : ℕ) (nested : Bool) (e : E) : Option (BlockOn V E) :=
  if s.resuming w nested ∨ s.driving w ∧ nested = false then s.escape w nested e else none

/-- `return std::move(*result)`. -/
def returns (s : BlockOn V E) : Option (BlockOn V E) :=
  match s.inPlaceWorker, s.current with
  | some x, some j =>
    if x.point = .stopped then
      match s.calls[j]?.bind BlockOnCall.result with
      | some v =>
        some { s with calls := s.calls.modify j fun call => { call with outcome := some (.ok v) } }
      | none => some { s with fault := true }
    else none
  | _, _ => none

/-- Only `block_on` runs the in-place worker, and only `blocking_future` suspends it. -/
def outside : QueueAction → Bool
  | .suspend w | .start w => w ≠ 0
  | _ => true

variable (handleOf : ℕ → ℕ)

/-- What happens as long as the process runs. -/
def act (s : BlockOn V E) : BlockOnAction V E → Option (BlockOn V E)
  | .blockOn => s.blockOn
  | .complete w k nested r => s.complete w k nested r
  | .suspend w k => s.suspend w k
  | .throws w nested e => s.throws w nested e
  | .returns => s.returns
  | .queue a =>
    if outside a then (s.queue.step handleOf a).map fun queue => { s with queue := queue } else none

def step (s : BlockOn V E) (a : BlockOnAction V E) : Option (BlockOn V E) :=
  if s.dead then none else s.act handleOf a

/-- No exception of another coroutine, or of `Driver::poll`, leaves `block_on`. -/
def calm : BlockOnAction V E → Bool
  | .throws w nested _ => w ≠ 0 || nested
  | _ => true

end BlockOn

end Xyco.Runtime
