import Mathlib.Logic.Function.Basic
import Xyco.Machine.Args
import Xyco.Task.Fork

/-!
# `select`

`SelectFuture` runs its branches as tasks of their own and is registered by the first one that
finishes. Its second poll collects what has finished by then and cancels the rest. The branches share
a `BranchShared` with it, which lives on after the `SelectFuture` is destroyed.

What branch `i` ends with is `result i`; when it ends is up to the run.
-/

namespace Xyco.Task

/-- A `SelectFuture` with its `BranchShared`. `finished` and `abandoned` have the branches that
recorded their result and that ended with a `CancelException`, `registrations` those that called
`register_future`, each in order; `cancels` has those that `cancel()` was called on, and `outcome` is
what the second poll returned or threw. -/
structure Select (n : ℕ) (T : Fin n → Type*) (E : Type*) where
  fork : Fork n Unit
  registered : Bool
  self : Bool
  branches : ∀ i, Option (Except E (T i))
  finished : List (Fin n)
  abandoned : List (Fin n)
  registrations : List (Fin n)
  cancels : List (Fin n)
  outcome : Option (Except E (∀ i, Option (T i)))

inductive SelectAction (n : ℕ) where
  | fork (a : ForkAction n)
  | poll (worker : ℕ)
  | finish (worker : ℕ)
  | abandon (worker : ℕ)
deriving DecidableEq, Repr

namespace Select

variable {n : ℕ} {T : Fin n → Type*} {E : Type*}

/-- `select` with `others` idle workers beside the one that awaits it. -/
def init (others : ℕ) : Select n T E :=
  ⟨.init others, false, true, fun _ => none, [], [], [], [], none⟩

/-- The lambda `cancel` of `poll`, on one branch: what it does to the branches cancelled so far, and
what it returns or throws. -/
def cancel (branches : ∀ i, Option (Except E (T i))) (i : Fin n) (cancels : List (Fin n)) :
    List (Fin n) × Except E (Option (T i)) :=
  match branches i with
  | none => (cancels ++ [i], .ok none)
  | some (.error e) => (cancels, .error e)
  | some (.ok v) => (cancels, .ok (some v))

/-- `poll`. The first one goes on to spawn the branches. The second one is followed by the resumption
of the coroutine that awaits the `SelectFuture`, which destroys it. -/
def poll (s : Select n T E) (w : ℕ) : Option (Select n T E) :=
  match s.fork.pool.job w with
  | some .poll =>
    if s.fork.ready then
      let (cancels, outcome) := Args.eval (cancel s.branches) s.cancels
      some { s with
        fork := { s.fork with pool := s.fork.pool.assign w none }
        self := false
        cancels := cancels
        outcome := some outcome }
    else
      some { s with
        fork := { s.fork with ready := true, pool := s.fork.pool.assign w (some .spawning) } }
  | _ => none

/-- Branch `i` stores what it ended with. -/
def store (result : ∀ i, Except E (T i)) (s : Select n T E) (i : Fin n) : Select n T E :=
  { s with
    branches := Function.update s.branches i (some (result i))
    finished := s.finished ++ [i] }

/-- `run_single_branch` of branch `i`, under `branch_mutex_`. -/
def runSingleBranch (result : ∀ i, Except E (T i)) (s : Select n T E) (i : Fin n) :
    Select n T E :=
  if s.registered = false ∧ s.self = true then
    { s.store result i with
      registered := true
      registrations := s.registrations ++ [i]
      fork := { s.fork with pool := s.fork.pool.push .self } }
  else s.store result i

/-- A branch finishes, with a value or an exception other than `CancelException`. -/
def finish (result : ∀ i, Except E (T i)) (s : Select n T E) (w : ℕ) : Option (Select n T E) :=
  match s.fork.pool.job w with
  | some (.branch i _) =>
    let s := s.runSingleBranch result i
    some { s with fork := { s.fork with pool := s.fork.pool.assign w none } }
  | _ => none

/-- A branch ends with a `CancelException`. -/
def abandon (s : Select n T E) (w : ℕ) : Option (Select n T E) :=
  match s.fork.pool.job w with
  | some (.branch i _) => some { s with
      fork := { s.fork with pool := s.fork.pool.assign w none }
      abandoned := s.abandoned ++ [i] }
  | _ => none

/-- The first poll reaches the branches through `this`. -/
def step (result : ∀ i, Except E (T i)) (s : Select n T E) :
    SelectAction n → Option (Select n T E)
  | .fork (.spawn w) =>
    if s.self then (s.fork.spawn w).map fun fork => { s with fork := fork } else none
  | .fork a => (s.fork.step () a).map fun fork => { s with fork := fork }
  | .poll w => s.poll w
  | .finish w => s.finish result w
  | .abandon w => s.abandon w

/-! ## What `select` promises -/

/-- What the second poll does with the branches that have finished: it throws the first exception
from the left, or returns the values there are. -/
structure Reports (result : ∀ i, Except E (T i)) (finished : List (Fin n))
    (outcome : Option (Except E (∀ i, Option (T i)))) : Prop where
  values : (∀ i ∈ finished, ∀ e, result i ≠ .error e) →
    ∃ t, outcome = some (.ok t) ∧ (∀ i v, t i = some v ↔ i ∈ finished ∧ result i = .ok v) ∧
      ∃ i v, t i = some v
  exception : ∀ i ∈ finished, ∀ e, result i = .error e →
    (∀ j ∈ finished, j < i → ∀ e, result j ≠ .error e) → outcome = some (.error e)

/-- No branch finishes before the last one is spawned. -/
def SpawnedFirst (s : Select n T E) : SelectAction n → Prop
  | .finish _ => s.fork.spawned = n
  | _ => True

instance (s : Select n T E) (a : SelectAction n) : Decidable (s.SpawnedFirst a) :=
  match a with
  | .finish _ => inferInstanceAs (Decidable (s.fork.spawned = n))
  | .fork _ | .poll _ | .abandon _ => isTrue trivial

end Select

end Xyco.Task
