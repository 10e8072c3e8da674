import Xyco.Runtime.RunQueue
import Xyco.Time.History

/-!
# `sleep`

A sleeping coroutine from its `co_await` to its resumption. The first poll of the `Future` of `sleep`
puts its event into the wheel of the `TimeRegistry`. A worker in `Driver::poll` takes the events that
`select` returns, and `wake` hands the future of each to the run queue. Any worker then polls it a
second time and resumes the coroutine.

The wheel and the run queue are the machines of their own. What other futures and registries do is up
to the run, except that they do not touch the futures of `sleep`. Where the wheel throws in
`insert_event`, the `co_await` of the `sleep` ends with the exception and nothing is stored. Where it
throws in `expire`, the exception leaves `Driver::poll` and the loop of the worker, and the run ends
there.
-/

namespace Xyco.Time

open Xyco.Runtime

/-- The `Future` of `sleep` with its event. `eventFuture` is `event_->future_` and `expireTime` is
`expire_time_` of the `TimeExtra`; `duration` is in milliseconds. `start` is the reading of the clock
in the first poll. -/
structure SleepFuture where
  ready : Bool
  duration : Int
  expireTime : Int
  eventFuture : Option ℕ
  start : Int
deriving DecidableEq, Repr

def SleepFuture.new (duration : Int) : SleepFuture := ⟨false, duration, minTime, none, 0⟩

/-- The future after its first poll, which sets `ready_` before it calls the registry. -/
def SleepFuture.polled (x : SleepFuture) (f : ℕ) (reading : Int) : SleepFuture :=
  { x with
    ready := true
    expireTime := toInt64 (reading + ticksPerMs * x.duration)
    eventFuture := some f
    start := reading }

/-- A `Future` object that coroutines await. -/
inductive AwaitedObject where
  | sleep (future : SleepFuture)
  /-- a `sleep` whose `co_await` has ended with the exception of `insert_event` -/
  | thrown
  | other
deriving DecidableEq, Repr

/-- `events` has the vector of `Driver::poll` on each worker. `expired` has the events that `select`
has returned so far, each with the reading of the clock, and `finished` the futures of `sleep` whose
second poll has returned `Ready`. `terminated` says that an exception has left the loop of a worker,
which ends the process unless it is the in-place worker in `block_on`. -/
structure Sleeps where
  history : History
  queue : RunQueue
  objects : List AwaitedObject
  events : List (List Event)
  expired : List (Int × Event)
  finished : List ℕ
  terminated : Bool

inductive SleepAction where
  /-- a `Future` object of another kind is made -/
  | make
  /-- the coroutine that the worker `w` has resumed awaits a new `sleep` -/
  | sleep (w : ℕ) (duration reading : Int)
  /-- the worker `w` calls `select` of the `TimeRegistry` -/
  | select (w : ℕ) (reading : Int)
  /-- the worker `w` goes on in `RuntimeCore::wake` -/
  | wake (w : ℕ)
  /-- the worker `w` goes on in its run loop -/
  | worker (w : ℕ) (ok : Bool) (reading : Int)
  /-- anything else that happens to the run queue -/
  | queue (a : QueueAction)
deriving DecidableEq, Repr

namespace Sleeps

/-- A runtime with its workers, built when the clock reads `t₀`. -/
def init (workers : ℕ) (t₀ : Int) : Sleeps where
  history := .new t₀
  queue := .init workers
  objects := []
  events := List.replicate workers []
  expired := []
  finished := []
  terminated := false

/-- What a poll comes to. -/
inductive SleepPoll where
  | ready
  | pending
  | throws
deriving DecidableEq, Repr

/-- `Future::poll` of `sleep`, for the future number `f`, with the reading of the clock that it takes.
`Register` of the `TimeRegistry` passes the event to `insert_event`. -/
def poll (s : Sleeps) (f : ℕ) (x : SleepFuture) (reading : Int) : Sleeps × SleepPoll :=
  if x.ready then (s, .ready)
  else
    let x := x.polled f reading
    match s.history.step (.insertEvent ⟨f, x.expireTime⟩) with
    | some history =>
      ({ s with history := history, objects := s.objects.set f (.sleep x) }, .pending)
    | none => ({ s with objects := s.objects.set f (.sleep x) }, .throws)

/-- `co_await` of a new `sleep`, in a coroutine that the worker `w` has resumed. An exception of the
poll ends the `co_await`, and the object goes away with it. -/
def sleep (s : Sleeps) (w : ℕ) (duration reading : Int) : Option Sleeps :=
  match s.queue.workers[w]? with
  | some ⟨_, .resume _ _⟩ =>
    let f := s.objects.length
    let x := SleepFuture.new duration
    match poll { s with objects := s.objects ++ [.sleep x] } f x reading with
    | (t, .throws) => some { t with objects := t.objects.set f .thrown }
    | (t, _) => some t
  | _ => none

def driving (s : Sleeps) (w : ℕ) : Bool := s.queue.workers[w]?.any fun x => x.point = .drive

/-- `TimeRegistryImpl::select`, called by `Driver::poll` with an empty vector. -/
def select (s : Sleeps) (w : ℕ) (reading : Int) : Option Sleeps :=
  if s.driving w ∧ s.events[w]? = some [] then
    match s.history.step (.expire reading) with
    | some history =>
      let events := history.delivered.getLastD []
      some { s with
        history := history
        events := s.events.set w events
        expired := s.expired ++ events.map (reading, ·) }
    | none => some { s with terminated := true }
  else none

variable (handleOf : ℕ → ℕ)

/-- One turn of the loop of `RuntimeCore::wake`, for an event of `select`. There is none if `future_`
is a null pointer. -/
def wake (s : Sleeps) (w : ℕ) : Option Sleeps :=
  match s.events[w]? with
  | some (event :: events) =>
    match s.objects[event.future]? with
    | some (.sleep x) =>
      match x.eventFuture with
      | some f =>
        (s.queue.step handleOf (.wake f)).map fun queue =>
          { s with
            queue := queue
            objects := s.objects.set event.future (.sleep { x with eventFuture := none })
            events := s.events.set w events }
      | none => none
    | _ => none
  | _ => none

def setQueue (s : Sleeps) (queue : RunQueue) : Sleeps := { s with queue := queue }

/-- The worker `w` polls the future `f` of `sleep` that it has taken from a queue. `poll_wrapper`
catches an exception and returns true. -/
def pollTaken (s : Sleeps) (w f : ℕ) (x : SleepFuture) (reading : Int) : Option Sleeps :=
  let (t, result) := s.poll f x reading
  (t.queue.runWorker w (decide (result ≠ .pending))).map fun queue =>
    { t.setQueue queue with
      finished := if result = .ready then t.finished ++ [f] else t.finished }

/-- The future of `sleep` that the worker at a point is about to poll. -/
def sleepAt (s : Sleeps) : LoopPoint → Option (ℕ × SleepFuture)
  | .poll _ _ entry =>
    match entry.future with
    | some f =>
      match s.objects[f]? with
      | some (.sleep x) => some (f, x)
      | _ => none
    | none => none
  | _ => none

/-- A worker goes on in its run loop. It stays in `Driver::poll` as long as there are events to
wake. -/
def worker (s : Sleeps) (w : ℕ) (ok : Bool) (reading : Int) : Option Sleeps :=
  match s.queue.workers[w]? with
  | some x =>
    match s.sleepAt x.point with
    | some (f, future) => s.pollTaken w f future reading
    | none =>
      if x.point = .drive ∧ s.events[w]? ≠ some [] then none
      else (s.queue.runWorker w ok).map s.setQueue
  | none => none

/-- The actions of other parts of the runtime: they wake futures of other kinds. -/
def foreign (s : Sleeps) : QueueAction → Bool
  | .registerFuture f | .wake f | .wakeLocal _ f => s.objects[f]? = some .other
  | .spawnImpl _ | .suspend _ | .start _ => true
  | .worker _ _ => false

/-- What happens as long as no exception has left the loop of a worker. -/
def act (s : Sleeps) : SleepAction → Option Sleeps
  | .make => some { s with objects := s.objects ++ [.other] }
  | .sleep w duration reading => s.sleep w duration reading
  | .select w reading => s.select w reading
  | .wake w => s.wake handleOf w
  | .worker w ok reading => s.worker w ok reading
  | .queue a => if s.foreign a then (s.queue.step handleOf a).map s.setQueue else none

def step (s : Sleeps) (a : SleepAction) : Option Sleeps :=
  if s.terminated then none else s.act handleOf a

/-! ## The clock -/

/-- A reading of the clock after the epoch, and not too far from it. -/
def InEpoch (t : Int) : Prop := 0 ≤ t ∧ t < 2 ^ 62

instance : DecidablePred InEpoch := fun t => inferInstanceAs (Decidable (0 ≤ t ∧ t < 2 ^ 62))

/-- The action reads the clock in that range, and sleeps for a time that fits with it in 64 bits. -/
def timely : SleepAction → Prop
  | .sleep _ duration reading =>
    InEpoch reading ∧ -2 ^ 62 ≤ ticksPerMs * duration ∧ ticksPerMs * duration ≤ 2 ^ 62
  | .select _ reading => InEpoch reading
  | _ => True

instance : DecidablePred timely := fun a => by cases a <;> unfold timely <;> infer_instance

/-! ## Where the futures are -/

/-- The events of the future `f` in the wheel. -/
def stored (s : Sleeps) (f : ℕ) : ℕ := s.history.wheel.stored.countP fun e => e.future = f

/-- The events of `f` that `select` has returned and `wake` has not come to yet. -/
def collected (s : Sleeps) (f : ℕ) : ℕ :=
  (s.events.map fun events => events.countP fun e => e.future = f).sum

/-- The entries of `f` in the queues. -/
def queued (s : RunQueue) (f : ℕ) : ℕ :=
  (s.queues.map fun h => h.entries.countP fun entry => entry.future = some f).sum

def polledAt (f : ℕ) : LoopPoint → ℕ
  | .poll _ _ entry => if entry.future = some f then 1 else 0
  | _ => 0

/-- The entries of `f` that workers have taken and not polled yet. -/
def held (s : RunQueue) (f : ℕ) : ℕ := (s.workers.map fun x => polledAt f x.point).sum

end Sleeps

end Xyco.Time
