import Mathlib.Logic.Function.Basic
import Xyco.Machine.Args
import Xyco.Task.Fork

/-!
# `join`

`JoinFuture` runs its branches as tasks of their own and is registered by a branch that finds all
results stored. A branch stores its result before it locks `branch_mutex_`; what it does under the
mutex is cut into the accesses to `registered_` and to the entries of `branches_`, since other
branches store their results at the same time. The branches have a plain pointer to the `JoinFuture`.

What branch `i` ends with is `result i`; when it ends is up to the run.
-/

namespace Xyco.Task

/-- Where a worker is in `run_single_branch`. -/
inductive Stage where
  /-- in the `co_await` of the branch's future -/
  | running
  /-- before `branch_mutex_` is locked -/
  | stored
  /-- before the test of `registered_` -/
  | locked
  /-- `has_value` was read of the first `k` branches; `completed` says if it held of all of them -/
  | testing (k : ℕ) (completed : Bool)
  /-- `registered_` is set -/
  | registering
  /-- before `branch_mutex_` is unlocked -/
  | leaving
deriving DecidableEq, Repr

/-- The exceptions of the second poll: that of a branch, or the one of `value()` of an
`std::optional` without a value. -/
inductive JoinError (E : Type*) where
  | badOptionalAccess
  | branch (e : E)
deriving DecidableEq, Repr

/-- A `JoinFuture`. `finished` has the branches that have returned and `registrations` those that
called `register_future`, in order; `outcome` is what the second poll returned or threw. -/
structure Join (n : ℕ) (T : Fin n → Type*) (E : Type*) where
  fork : Fork n Stage
  branchMutex : Bool
  registered : Bool
  branches : ∀ i, Option (Except E (T i))
  finished : List (Fin n)
  registrations : List (Fin n)
  outcome : Option (Except (JoinError E) (∀ i, T i))

inductive JoinAction (n : ℕ) where
  | fork (a : ForkAction n)
  | poll (worker : ℕ)
  | branch (worker : ℕ)
deriving DecidableEq, Repr

namespace Join

variable {n : ℕ} {T : Fin n → Type*} {E : Type*}

/-- `join` with `others` idle workers beside the one that awaits it. -/
def init (others : ℕ) : Join n T E :=
  ⟨.init others, false, false, fun _ => none, [], [], none⟩

/-- The second poll was followed by the resumption of the coroutine that awaits the `JoinFuture`,
which destroys it. -/
def destroyed (s : Join n T E) : Bool := s.outcome.isSome

/-- The lambda `extract_result` of `poll`, on one branch. -/
def extractResult (branches : ∀ i, Option (Except E (T i))) (i : Fin n) (u : Unit) :
    Unit × Except (JoinError E) (T i) :=
  match branches i with
  | none => (u, .error .badOptionalAccess)
  | some (.error e) => (u, .error (.branch e))
  | some (.ok v) => (u, .ok v)

/-- `poll`. The first one goes on to spawn the branches. -/
def poll (s : Join n T E) (w : ℕ) : Option (Join n T E) :=
  match s.fork.pool.job w with
  | some .poll =>
    if s.fork.ready then
      some { s with
        fork := { s.fork with pool := s.fork.pool.assign w none }
        outcome := some (Args.eval (extractResult s.branches) ()).2 }
    else
      some { s with
        fork := { s.fork with ready := true, pool := s.fork.pool.assign w (some .spawning) } }
  | _ => none

/-- The worker `w` goes on to another point of branch `i`. -/
def goTo (s : Join n T E) (w : ℕ) (i : Fin n) (stage : Stage) : Join n T E :=
  { s with fork := { s.fork with pool := s.fork.pool.assign w (some (.branch i stage)) } }

/-- One step of `run_single_branch`. It is the same after the `JoinFuture` is destroyed, where it is
an access to memory that is gone. -/
def runSingleBranch (result : ∀ i, Except E (T i)) (s : Join n T E) (w : ℕ) (i : Fin n) :
    Stage → Option (Join n T E)
  | .running =>
    some { s.goTo w i .stored with
      branches := Function.update s.branches i (some (result i)) }
  | .stored =>
    if s.branchMutex then none else some { s.goTo w i .locked with branchMutex := true }
  | .locked => some (s.goTo w i (if s.registered then .leaving else .testing 0 true))
  | .testing k completed =>
    if h : k < n then
      some (s.goTo w i (.testing (k + 1) (completed && (s.branches ⟨k, h⟩).isSome)))
    else if completed then some { s.goTo w i .registering with registered := true }
    else some (s.goTo w i .leaving)
  | .registering =>
    some { s with
      fork := { s.fork with
        pool := (s.fork.pool.push .self).assign w (some (.branch i .leaving)) }
      registrations := s.registrations ++ [i] }
  | .leaving =>
    some { s with
      fork := { s.fork with pool := s.fork.pool.assign w none }
      branchMutex := false
      finished := s.finished ++ [i] }

def branch (result : ∀ i, Except E (T i)) (s : Join n T E) (w : ℕ) : Option (Join n T E) :=
  match s.fork.pool.job w with
  | some (.branch i stage) => s.runSingleBranch result w i stage
  | _ => none

def step (result : ∀ i, Except E (T i)) (s : Join n T E) : JoinAction n → Option (Join n T E)
  | .fork a => (s.fork.step .running a).map fun fork => { s with fork := fork }
  | .poll w => s.poll w
  | .branch w => s.branch result w

/-! ## What `join` promises -/

/-- What the second poll does: it returns the value of every branch, or throws the first exception
from the left. -/
structure Joins (result : ∀ i, Except E (T i))
    (outcome : Option (Except (JoinError E) (∀ i, T i))) : Prop where
  values : ∀ t : ∀ i, T i, (∀ i, result i = .ok (t i)) → outcome = some (.ok t)
  exception : ∀ i e, result i = .error e → (∀ j < i, ∀ e, result j ≠ .error e) →
    outcome = some (.error (.branch e))

/-- The second poll comes when no worker is in a branch. -/
def BranchesLeft (s : Join n T E) : JoinAction n → Prop
  | .poll _ => s.fork.ready = true → s.fork.pool.busy (Job.within fun _ _ => true) = 0
  | _ => True

instance (s : Join n T E) (a : JoinAction n) : Decidable (s.BranchesLeft a) :=
  match a with
  | .poll _ => inferInstanceAs (Decidable (_ → _))
  | .fork _ | .branch _ => isTrue trivial

end Join

end Xyco.Task
