import Xyco.Machine.Run
import Xyco.Machine.Table

/-!
# The blocking registry

`BlockingRegistryImpl` keeps the events of blocking tasks and hands their functions to the workers of
a pool. A step is what a thread does between two points where another may come in: a section under
a mutex, the wait for one, a comparison of two unprotected sizes, one statement of a destructor.

The event of the `i`-th call of `Register` is `i`; its task is queued under the same number. What a
task's function does is up to the run, up to the point where it sets `after_extra_` and returns.
-/

namespace Xyco.Task

/-- Where a thread is in `BlockingWorker::run`. -/
inductive WorkerPoint where
  /-- before the test of `end_` -/
  | test
  /-- before `mutex_` is locked -/
  | lock
  /-- has `mutex_`, before that of the registry is locked -/
  | lockRegistry
  /-- has both, before the test of `tasks_` -/
  | drain
  /-- in the task of an event, with the mutex of the registry only -/
  | execute (event : ℕ)
  /-- before `mutex_` is locked again -/
  | relock
  /-- has `mutex_` only, before the predicate of `cv_.wait` is evaluated -/
  | check
  /-- has `mutex_` only, and the predicate was false -/
  | park
  /-- waits for a notification -/
  | asleep
  /-- was woken, before `mutex_` is locked -/
  | woken
  | returned
deriving DecidableEq, Repr

/-- `BlockingWorker`. -/
structure BlockingWorker where
  tasks : List ℕ
  locked : Bool
  ended : Bool
  point : WorkerPoint
deriving DecidableEq, Repr

/-- Where a thread of the runtime is in its call. -/
inductive CallerPoint where
  | idle
  /-- in `min_element` of `spawn`: `best` is the result so far, `next` is compared with it next -/
  | spawning (event best next : ℕ)
  /-- in `spawn`, before `notify_one` -/
  | notifying (worker : ℕ)
  /-- in `select`, before the first `copy_if` -/
  | selecting
  /-- in `select`, between the two -/
  | keeping (newEvents : List ℕ)
  /-- in `select`, before the assignment to `events_` -/
  | taking (newEvents events : List ℕ)
deriving DecidableEq, Repr

/-- Where the destructor of `BlockingPool` is. -/
inductive DestructorPoint where
  | idle
  | ending (worker : ℕ)
  | notifying (worker : ℕ)
  | joining
deriving DecidableEq, Repr

inductive Owner where
  | worker (w : ℕ)
  | caller (k : ℕ)
deriving DecidableEq, Repr

/-- `BlockingRegistryImpl`, its pool and the threads. `registered` is the number of calls of
`Register`. `started` has the functions that were called, `finished` those that have set
`after_extra_`, and `selected` the events that `select` has returned, in order. -/
structure BlockingRegistry where
  events : List ℕ
  mutex : Option Owner
  workers : List BlockingWorker
  callers : List CallerPoint
  destructor : DestructorPoint
  registered : ℕ
  started : List ℕ
  finished : List ℕ
  selected : List ℕ
deriving DecidableEq, Repr

inductive BlockingAction where
  | worker (w : ℕ)
  | wakeSpuriously (w : ℕ)
  | register (k : ℕ)
  | select (k : ℕ)
  | caller (k : ℕ)
  | destroy
deriving DecidableEq, Repr

namespace BlockingWorker

/-- `notify_one`. -/
def notify (x : BlockingWorker) : BlockingWorker :=
  match x.point with
  | .asleep => { x with point := .woken }
  | _ => x

/-- The predicate of `cv_.wait`. -/
def awake (x : BlockingWorker) : Bool := !x.tasks.isEmpty || x.ended

end BlockingWorker

namespace BlockingRegistry

def init (workers callers : ℕ) : BlockingRegistry where
  events := []
  mutex := none
  workers := List.replicate workers ⟨[], false, false, .test⟩
  callers := List.replicate callers .idle
  destructor := .idle
  registered := 0
  started := []
  finished := []
  selected := []

def setWorker (s : BlockingRegistry) (w : ℕ) (x : BlockingWorker) : BlockingRegistry :=
  { s with workers := s.workers.set w x }

def goTo (s : BlockingRegistry) (k : ℕ) (p : CallerPoint) : BlockingRegistry :=
  { s with callers := s.callers.set k p }

/-- `after_extra_ != nullptr` of an event. -/
def hasResult (s : BlockingRegistry) (event : ℕ) : Bool := s.finished.contains event

/-- `BlockingWorker::run`, from one point to the next. -/
def runWorker (s : BlockingRegistry) (w : ℕ) : Option BlockingRegistry :=
  match s.workers[w]? with
  | none => none
  | some x =>
    match x.point with
    | .test => some (s.setWorker w { x with point := if x.ended then .returned else .lock })
    | .lock =>
      if x.locked = false then
        some (s.setWorker w { x with locked := true, point := .lockRegistry })
      else none
    | .lockRegistry =>
      if s.mutex = none then
        some ({ s with mutex := some (.worker w) }.setWorker w { x with point := .drain })
      else none
    | .drain =>
      match x.tasks with
      | [] => some ({ s with mutex := none }.setWorker w { x with point := .check })
      | e :: rest =>
        some ({ s with started := s.started ++ [e] }.setWorker w
          { x with tasks := rest, locked := false, point := .execute e })
    | .execute e =>
      some ({ s with finished := s.finished ++ [e] }.setWorker w { x with point := .relock })
    | .relock =>
      if x.locked = false then some (s.setWorker w { x with locked := true, point := .drain })
      else none
    | .check =>
      if x.awake then some (s.setWorker w { x with locked := false, point := .test })
      else some (s.setWorker w { x with point := .park })
    | .park => some (s.setWorker w { x with locked := false, point := .asleep })
    | .woken =>
      if x.locked = false then some (s.setWorker w { x with locked := true, point := .check })
      else none
    | .asleep | .returned => none

def wakeSpuriously (s : BlockingRegistry) (w : ℕ) : Option BlockingRegistry :=
  match s.workers[w]? with
  | none => none
  | some x => if x.point = .asleep then some (s.setWorker w { x with point := .woken }) else none

/-- The section of `Register`. -/
def register (s : BlockingRegistry) (k : ℕ) : Option BlockingRegistry :=
  if s.callers[k]? = some .idle ∧ s.mutex = none then
    some ({ s with
      events := s.events ++ [s.registered]
      registered := s.registered + 1 }.goTo k (.spawning s.registered 0 1))
  else none

/-- `select` locks `mutex_`. -/
def select (s : BlockingRegistry) (k : ℕ) : Option BlockingRegistry :=
  if s.callers[k]? = some .idle ∧ s.mutex = none then
    some ({ s with mutex := some (.caller k) }.goTo k .selecting)
  else none

/-- The rest of `Register` (`BlockingPool::spawn`) and of `select`, from one point to the next. -/
def runCaller (s : BlockingRegistry) (k : ℕ) : Option BlockingRegistry :=
  match s.callers[k]? with
  | some (.spawning e best next) =>
    match s.workers[next]?, s.workers[best]? with
    | some x, some y =>
      some (s.goTo k (.spawning e (if x.tasks.length < y.tasks.length then next else best)
        (next + 1)))
    | none, some y =>
      if y.locked = false then
        some ((s.setWorker best { y with tasks := y.tasks ++ [e] }).goTo k (.notifying best))
      else none
    | _, none => none
  | some (.notifying w) =>
    match s.workers[w]? with
    | some x => some ((s.setWorker w x.notify).goTo k .idle)
    | none => none
  | some .selecting => some (s.goTo k (.keeping (s.events.filter fun e => !s.hasResult e)))
  | some (.keeping newEvents) =>
    some (s.goTo k (.taking newEvents (s.events.filter fun e => s.hasResult e)))
  | some (.taking newEvents events) =>
    some ({ s with
      events := newEvents
      mutex := none
      selected := s.selected ++ events }.goTo k .idle)
  | some .idle | none => none

/-- The destructor of `BlockingPool`, up to the first `join`. -/
def destroy (s : BlockingRegistry) : Option BlockingRegistry :=
  match s.destructor with
  | .idle => some { s with destructor := if s.workers = [] then .joining else .ending 0 }
  | .ending w =>
    match s.workers[w]? with
    | some x => some { s.setWorker w { x with ended := true } with destructor := .notifying w }
    | none => none
  | .notifying w =>
    match s.workers[w]? with
    | some x =>
      some { s.setWorker w x.notify with
        destructor := if w + 1 < s.workers.length then .ending (w + 1) else .joining }
    | none => none
  | .joining => none

def step (s : BlockingRegistry) : BlockingAction → Option BlockingRegistry
  | .worker w => s.runWorker w
  | .wakeSpuriously w => s.wakeSpuriously w
  | .register k => s.register k
  | .select k => s.select k
  | .caller k => s.runCaller k
  | .destroy => s.destroy

end BlockingRegistry

end Xyco.Task
