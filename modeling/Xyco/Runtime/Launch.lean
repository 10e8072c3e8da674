import Xyco.Machine.Run
import Xyco.Machine.Table

/-!
# The launch of a runtime

The creating thread runs the constructor of `RuntimeCore`: it adds itself to the driver, as the
in-place worker, and starts the other workers, each of which adds itself in `init_in_thread`.
`local_registries_` of the driver has no mutex of its own. The workers write to it under
`worker_launch_mutex_` and wait on `worker_launch_cv_` for the last of them; from then on it is only
read.

Thread 0 is the creating thread and thread `w + 1` the worker `w`. Each write to the table is a step
of its own. `wait` has no predicate: a worker that wakes up goes on.
-/

namespace Xyco.Runtime

/-- Where a worker is in `init_in_thread` and `run_in_place`. -/
inductive InitPoint where
  /-- before `worker_launch_mutex_` is locked -/
  | lock
  /-- in `add_thread`, with the mutex -/
  | adding
  /-- before `++init_worker_num_`, with the mutex -/
  | counting
  /-- has unlocked the mutex, before `notify_all` -/
  | notifying
  | waiting
  /-- woken up, before the mutex is locked again -/
  | woken
  /-- `wait` has returned, with the mutex -/
  | awake
  /-- in the run loop, outside the driver -/
  | running
  /-- in `Driver::poll`, or in `Driver::Register` called by a coroutine -/
  | lookup
  | stopped
deriving DecidableEq, Repr

/-- Where the creating thread is. -/
inductive CreatorPoint where
  /-- in `add_thread` of the in-place worker -/
  | adding
  /-- in the loop of the constructor that starts the workers -/
  | starting
  /-- the runtime is built -/
  | built
  /-- in the run loop of `block_on`, outside the driver -/
  | running
  | lookup
deriving DecidableEq, Repr

/-- `localRegistries` has for each thread the number of registries it has added, or `none` if it has
no entry yet. `registryNum` is the number of `registry_initializers_`. -/
structure Launch where
  workerNum : ℕ
  registryNum : ℕ
  localRegistries : List (Option ℕ)
  initWorkerNum : ℕ
  launchMutex : Option ℕ
  creator : CreatorPoint
  workers : List InitPoint
deriving DecidableEq, Repr

inductive LaunchAction where
  /-- the creating thread goes on in the constructor -/
  | construct
  /-- `block_on` is called on the creating thread -/
  | blockOn
  /-- the run loop of `block_on` reads the table -/
  | creatorLookup
  /-- the read is over -/
  | creatorLeave
  /-- `block_on` returns -/
  | blockOnReturn
  /-- a worker goes on in `init_in_thread` -/
  | init (w : ℕ)
  /-- a worker that nobody has notified wakes up -/
  | spurious (w : ℕ)
  | lookup (w : ℕ)
  | leave (w : ℕ)
  | stop (w : ℕ)
deriving DecidableEq, Repr

namespace Launch

def new (workerNum registryNum : ℕ) : Launch where
  workerNum := workerNum
  registryNum := registryNum
  localRegistries := List.replicate (workerNum + 1) none
  initWorkerNum := 0
  launchMutex := none
  creator := .adding
  workers := []

/-- The next write of `Driver::add_thread` on the thread `t`: a new entry, or one more registry in it.
There is none if all registries were added. -/
def addThread (s : Launch) (t : ℕ) : Option (List (Option ℕ)) :=
  match s.localRegistries[t]? with
  | some none => some (s.localRegistries.set t (some 0))
  | some (some k) =>
    if k < s.registryNum then some (s.localRegistries.set t (some (k + 1))) else none
  | none => none

/-- The in-place worker and all workers have completed `add_thread`. -/
def Complete (s : Launch) : Prop :=
  ∀ t ≤ s.workerNum, s.localRegistries[t]? = some (some s.registryNum)

instance (s : Launch) : Decidable s.Complete :=
  inferInstanceAs (Decidable (∀ t ≤ s.workerNum, _))

def construct (s : Launch) : Option Launch :=
  match s.creator with
  | .adding =>
    match s.addThread 0 with
    | some table => some { s with localRegistries := table }
    | none => some { s with creator := .starting }
  | .starting =>
    if s.workers.length < s.workerNum then some { s with workers := s.workers ++ [.lock] }
    else some { s with creator := .built }
  | _ => none

def moveCreator (s : Launch) (p q : CreatorPoint) : Option Launch :=
  if s.creator = p then some { s with creator := q } else none

def goTo (s : Launch) (w : ℕ) (p : InitPoint) : Launch := { s with workers := s.workers.set w p }

def moveWorker (s : Launch) (w : ℕ) (p q : InitPoint) : Option Launch :=
  if s.workers[w]? = some p then some (s.goTo w q) else none

/-- `notify_all` on one thread. -/
def wakeUp : InitPoint → InitPoint
  | .waiting => .woken
  | p => p

/-- `init_in_thread` of a worker, from one point to the next. -/
def initInThread (s : Launch) (w : ℕ) : Option Launch :=
  match s.workers[w]? with
  | some .lock =>
    if s.launchMutex = none then some ({ s with launchMutex := some w }.goTo w .adding) else none
  | some .adding =>
    match s.addThread (w + 1) with
    | some table => some { s with localRegistries := table }
    | none => some (s.goTo w .counting)
  | some .counting =>
    if s.initWorkerNum + 1 = s.workerNum then
      some ({ s with initWorkerNum := s.initWorkerNum + 1, launchMutex := none }.goTo w .notifying)
    else some ({ s with initWorkerNum := s.initWorkerNum + 1, launchMutex := none }.goTo w .waiting)
  | some .notifying => some ({ s with workers := s.workers.map wakeUp }.goTo w .running)
  | some .woken =>
    if s.launchMutex = none then some ({ s with launchMutex := some w }.goTo w .awake) else none
  | some .awake => some ({ s with launchMutex := none }.goTo w .running)
  | _ => none

def step (s : Launch) : LaunchAction → Option Launch
  | .construct => s.construct
  | .blockOn => s.moveCreator .built .running
  | .creatorLookup => s.moveCreator .running .lookup
  | .creatorLeave => s.moveCreator .lookup .running
  | .blockOnReturn => s.moveCreator .running .built
  | .init w => s.initInThread w
  | .spurious w => s.moveWorker w .waiting .woken
  | .lookup w => s.moveWorker w .running .lookup
  | .leave w => s.moveWorker w .lookup .running
  | .stop w => s.moveWorker w .running .stopped

/-- Some thread is in the driver. -/
def LookedUp (s : Launch) : Prop := s.creator = .lookup ∨ .lookup ∈ s.workers

instance (s : Launch) : Decidable s.LookedUp := inferInstanceAs (Decidable (_ ∨ _))

/-- Nobody reads the table before it is complete. -/
def Safe (s : Launch) : Prop := s.LookedUp → s.Complete

instance (s : Launch) : Decidable s.Safe := inferInstanceAs (Decidable (_ → _))

/-- A worker wakes up without `notify_all`, and `block_on` is called, only when all threads have
completed `add_thread`. -/
def Patient (s : Launch) : LaunchAction → Prop
  | .spurious _ | .blockOn => s.Complete
  | _ => True

instance (s : Launch) (a : LaunchAction) : Decidable (s.Patient a) := by
  cases a <;> unfold Patient <;> infer_instance

/-! ## The end of the launch -/

/-- The worker is in its run loop, or has left it. -/
def atWork : InitPoint → Bool
  | .running | .lookup | .stopped => true
  | _ => false

/-- The constructor has returned, and every worker has left `init_in_thread`. -/
def Launched (s : Launch) : Prop :=
  s.creator ≠ .adding ∧ s.creator ≠ .starting ∧ s.workers.length = s.workerNum ∧
    ∀ p ∈ s.workers, atWork p = true

instance (s : Launch) : Decidable s.Launched := inferInstanceAs (Decidable (_ ∧ _ ∧ _ ∧ _))

/-- The steps of the constructor and of `init_in_thread`. -/
def launches : LaunchAction → Bool
  | .construct | .init _ => true
  | _ => false

end Launch

end Xyco.Runtime
