import Xyco.Machine.Pool
import Xyco.Machine.Run

/-!
# A future that spawns its branches

What `select` and `join` have in common. The first poll of the `SelectFuture` or `JoinFuture` passes
its `n` branches to `spawn_impl`, one after the other; other workers take entries of the run queue
meanwhile. A branch is a coroutine that may suspend and be woken any number of times before it ends.
What a branch does at its end differs: `κ` has the points where a worker can be in a branch, and
`start` is the one before its end.
-/

namespace Xyco.Task

/-- The entries of the run queue `handles_`. -/
inductive Entry (n : ℕ) where
  | branch (i : Fin n)
  /-- the `SelectFuture` or `JoinFuture` itself, passed to `register_future` -/
  | self
deriving DecidableEq, Repr

/-- What a worker does. -/
inductive Job (n : ℕ) (κ : Type*) where
  /-- it is about to call `poll` of the future itself -/
  | poll
  /-- it is in the first poll, after `ready_` was set -/
  | spawning
  | branch (i : Fin n) (stage : κ)
deriving DecidableEq, Repr

/-- The job is a branch in `q`. -/
def Job.within {n : ℕ} {κ : Type*} (q : Fin n → κ → Bool) : Job n κ → Bool
  | .branch i stage => q i stage
  | _ => false

/-- What `Worker::run_loop_once` does with an entry. -/
def Entry.job {n : ℕ} {κ : Type*} (start : κ) : Entry n → Job n κ
  | .branch i => .branch i start
  | .self => .poll

/-- `ready_`, the number of branches spawned so far, the run queue with its workers, and the branches
that are suspended. -/
structure Fork (n : ℕ) (κ : Type*) where
  ready : Bool
  spawned : ℕ
  pool : Pool (Entry n) (Job n κ)
  suspended : List (Fin n)
deriving DecidableEq, Repr

inductive ForkAction (n : ℕ) where
  | take (worker : ℕ)
  | spawn (worker : ℕ)
  | pend (worker : ℕ)
  | suspend (worker : ℕ)
  | wake (i : Fin n)
deriving DecidableEq, Repr

namespace Fork

variable {n : ℕ} {κ : Type*}

/-- One worker is about to poll the future for the first time, `others` are idle. -/
def init (others : ℕ) : Fork n κ :=
  ⟨false, 0, ⟨[], some .poll :: List.replicate others none⟩, []⟩

/-- `spawn_impl` of the next branch. -/
def spawn (f : Fork n κ) (w : ℕ) : Option (Fork n κ) :=
  match f.pool.job w with
  | some .spawning =>
    if h : f.spawned < n then
      some { f with pool := f.pool.push (.branch ⟨f.spawned, h⟩), spawned := f.spawned + 1 }
    else none
  | _ => none

/-- The first poll returns `Pending`. -/
def pend (f : Fork n κ) (w : ℕ) : Option (Fork n κ) :=
  match f.pool.job w with
  | some .spawning => if f.spawned < n then none else some { f with pool := f.pool.assign w none }
  | _ => none

/-- A branch suspends in a `co_await`. -/
def suspend [DecidableEq κ] (start : κ) (f : Fork n κ) (w : ℕ) : Option (Fork n κ) :=
  match f.pool.job w with
  | some (.branch i stage) =>
    if stage = start then
      some { f with pool := f.pool.assign w none, suspended := i :: f.suspended }
    else none
  | _ => none

/-- What a branch waits for is ready. -/
def wake (f : Fork n κ) (i : Fin n) : Option (Fork n κ) :=
  if i ∈ f.suspended then
    some { f with pool := f.pool.push (.branch i), suspended := f.suspended.erase i }
  else none

def step [DecidableEq κ] (start : κ) (f : Fork n κ) : ForkAction n → Option (Fork n κ)
  | .take w => (f.pool.take (Entry.job start) w).map fun pool => { f with pool := pool }
  | .spawn w => f.spawn w
  | .pend w => f.pend w
  | .suspend w => f.suspend start w
  | .wake i => f.wake i

end Fork

end Xyco.Task
