import Xyco.Machine.Path
import Xyco.Machine.Run

/-!
# Futures and `co_await`

A `Future` is the return type of an async function, with the coroutine in `self_`, or an object of a
derived class with a `poll` of its own. The coroutines of all tasks are in one table and the `Future`
objects in another; handles and pointers are indices. What a coroutine does between two suspensions
is up to the run. No step resumes a coroutine in the middle of a `co_await` that has not ended, as a
second `co_await` of an async function that has started and not finished would. Objects are not
destroyed.
-/

namespace Xyco.Runtime

/-- What a coroutine throws. -/
inductive Thrown (E : Type*) where
  | cancelException
  | other (e : E)
deriving DecidableEq, Repr

/-- A `Future`. `polls` says that it is an object of a class that overrides `poll`. -/
structure Future (V E : Type*) where
  polls : Bool
  returned : Option V
  exceptionPtr : Option (Thrown E)
  self : Option ℕ
  waiting : Option ℕ
  waited : Option ℕ
  cancelled : Bool
deriving DecidableEq, Repr

/-- Where a coroutine is. -/
inductive Status where
  /-- at its initial suspend point -/
  | created
  | running
  /-- suspended in the `co_await` of a `Future` -/
  | awaiting (future : ℕ)
  /-- at its final suspend point -/
  | done
deriving DecidableEq, Repr

/-- A coroutine, with `future_` of its promise. -/
structure Frame where
  future : Option ℕ
  status : Status
deriving DecidableEq, Repr

/-- How a `co_await` ended: with `*std::move(return_)`, or with an exception. -/
inductive Outcome (V E : Type*) where
  | returned (v : Option V)
  | thrown (e : Thrown E)
deriving DecidableEq, Repr

/-- The coroutines and the `Future` objects of all tasks. `outcomes` has the `co_await`s that have
ended, each with the `Future` that was awaited. -/
structure Tasks (V E : Type*) where
  futures : List (Future V E)
  frames : List Frame
  outcomes : List (ℕ × Outcome V E)
deriving DecidableEq, Repr

inductive TaskAction (V E : Type*) where
  | spawn
  | call
  | make
  | move (p : ℕ)
  | await (g p : ℕ) (poll : Option (Except (Thrown E) V))
  | finish (g : ℕ) (r : Except (Thrown E) V)
  | complete (p : ℕ) (r : Except (Thrown E) V)
  | cancel (p : ℕ)
deriving DecidableEq, Repr

variable {V E : Type*}

namespace Future

/-- `return_value` and `unhandled_exception`, or what `poll_wrapper` does with a result. -/
def store (r : Except (Thrown E) V) (f : Future V E) : Future V E :=
  match r with
  | .ok v => { f with returned := some v }
  | .error e => { f with exceptionPtr := some e }

/-- What `await_resume` returns or throws. -/
def awaitResume (f : Future V E) : Outcome V E :=
  match f.exceptionPtr with
  | some e => .thrown e
  | none => if f.cancelled then .thrown .cancelException else .returned f.returned

end Future

namespace Tasks

def init : Tasks V E := ⟨[], [], []⟩

def status (s : Tasks V E) (g : ℕ) : Option Status := s.frames[g]?.map Frame.status

/-- `promise().future()` of a coroutine. -/
def futureOf (s : Tasks V E) (g : ℕ) : Option ℕ := s.frames[g]?.bind Frame.future

def setStatus (s : Tasks V E) (g : ℕ) (status : Status) : Tasks V E :=
  { s with frames := s.frames.modify g fun frame => { frame with status := status } }

/-- `set_waited` of the promise of a coroutine. -/
def setWaited (s : Tasks V E) (g : ℕ) (waited : Option ℕ) : Tasks V E :=
  match s.futureOf g with
  | some p => { s with futures := s.futures.modify p fun f => { f with waited := waited } }
  | none => s

def store (s : Tasks V E) (p : ℕ) (r : Except (Thrown E) V) : Tasks V E :=
  { s with futures := s.futures.modify p (Future.store r) }

/-- The first statement of `await_resume`. -/
def clearWaited (s : Tasks V E) (f : Future V E) : Tasks V E :=
  match f.waiting with
  | some h => s.setWaited h none
  | none => s

/-- The coroutine `g` goes on with `await_resume` of the `Future` `p`. -/
def resume (s : Tasks V E) (g p : ℕ) : Option (Tasks V E) :=
  match s.futures[p]? with
  | none => none
  | some f =>
    some { (s.clearWaited f).setStatus g .running with
      outcomes := s.outcomes ++ [(p, f.awaitResume)] }

def setWaiting (s : Tasks V E) (p g : ℕ) : Tasks V E :=
  { s with futures := s.futures.modify p fun f => { f with waiting := some g } }

/-- The first two statements of `await_suspend`. -/
def suspend (s : Tasks V E) (g p : ℕ) (self : Option ℕ) : Tasks V E :=
  (s.setWaiting p g).setWaited g self

/-- The running coroutine `g` executes `co_await` of the `Future` `p`. If that is an object with a
`poll` of its own, `poll` is the result of it: `Pending`, `Ready` or an exception. -/
def await (s : Tasks V E) (g p : ℕ) (poll : Option (Except (Thrown E) V)) : Option (Tasks V E) :=
  if s.status g = some .running then
    match s.futures[p]? with
    | none => none
    | some f =>
      match f.self with
      | some c =>
        match s.status c with
        | some .done => s.resume g p
        | some .created =>
          some (((s.suspend g p (some c)).setStatus g (.awaiting p)).setStatus c .running)
        | _ => none
      | none =>
        match if f.polls then poll else none with
        | none => some ((s.suspend g p none).setStatus g (.awaiting p))
        | some (.ok v) => ((s.suspend g p none).store p (.ok v)).resume g p
        | some (.error e) =>
          some { s.suspend g p none with outcomes := s.outcomes ++ [(p, .thrown e)] }
  else none

/-- The running coroutine `g` returns or throws and comes to `final_suspend`, which resumes the
coroutine in `waiting_`. -/
def finish (s : Tasks V E) (g : ℕ) (r : Except (Thrown E) V) : Option (Tasks V E) :=
  if s.status g = some .running then
    match s.futureOf g with
    | none => some (s.setStatus g .done)
    | some p =>
      match s.futures[p]?.bind Future.waiting with
      | none => some ((s.setStatus g .done).store p r)
      | some h =>
        if s.status h = some (.awaiting p) then ((s.setStatus g .done).store p r).resume h p
        else none
  else none

/-- A worker finds the object `p` ready (`poll_wrapper`) and resumes the coroutine that awaits it. -/
def complete (s : Tasks V E) (p : ℕ) (r : Except (Thrown E) V) : Option (Tasks V E) :=
  match s.futures[p]? with
  | none => none
  | some f =>
    match f.polls, f.waiting with
    | true, some g => if s.status g = some (.awaiting p) then (s.store p r).resume g p else none
    | _, _ => none

/-- A call of an async function. -/
def call (s : Tasks V E) : Tasks V E :=
  { s with
    futures := s.futures ++ [⟨false, none, none, some s.frames.length, none, none, false⟩]
    frames := s.frames ++ [⟨some s.futures.length, .created⟩] }

/-- An object of a class derived from `Future` is made. -/
def make (s : Tasks V E) : Tasks V E :=
  { s with futures := s.futures ++ [⟨true, none, none, none, none, none, false⟩] }

/-- `spawn_impl`: the `Future` of the outermost coroutine is dropped, and a worker resumes it. -/
def spawn (s : Tasks V E) : Tasks V E := { s with frames := s.frames ++ [⟨none, .running⟩] }

/-- `Future(Future &&)`, of a `Future` that is not being awaited. -/
def move (s : Tasks V E) (p : ℕ) : Option (Tasks V E) :=
  match s.futures[p]? with
  | none => none
  | some f =>
    if ∀ frame ∈ s.frames, frame.status ≠ .awaiting p then
      some { s with
        futures := s.futures.modify p (fun f =>
            { f with self := none, waiting := none, waited := none }) ++
          [{ f with exceptionPtr := none, cancelled := false }]
        frames := match f.self with
          | some c => s.frames.modify c fun frame => { frame with future := some s.futures.length }
          | none => s.frames }
    else none

/-- The recursion of `cancel` through `waited_`, up to a number of calls. -/
def cancelFrom (frames : List Frame) : ℕ → List (Future V E) → ℕ → List (Future V E)
  | 0, futures, _ => futures
  | calls + 1, futures, p =>
    match futures[p]? with
    | none => futures
    | some f =>
      match f.waited.bind fun c => frames[c]?.bind Frame.future with
      | none => futures.set p { f with cancelled := true }
      | some q => cancelFrom frames calls (futures.set p { f with cancelled := true }) q

/-- `cancel`. There are as many calls as `Future`s at most, unless `waited_` leads in a circle. -/
def cancel (s : Tasks V E) (p : ℕ) : Tasks V E :=
  { s with futures := cancelFrom s.frames s.futures.length s.futures p }

def step (s : Tasks V E) : TaskAction V E → Option (Tasks V E)
  | .spawn => some s.spawn
  | .call => some s.call
  | .make => some s.make
  | .move p => s.move p
  | .await g p poll => s.await g p poll
  | .finish g r => s.finish g r
  | .complete p r => s.complete p r
  | .cancel p => some (s.cancel p)

/-! ## Chains of suspended coroutines -/

def selfOf (s : Tasks V E) (p : ℕ) : Option ℕ := s.futures[p]?.bind Future.self

def waitingOf (s : Tasks V E) (p : ℕ) : Option ℕ := s.futures[p]?.bind Future.waiting

/-- The `Future` that a coroutine awaits. -/
def awaited (s : Tasks V E) (g : ℕ) : Option ℕ :=
  match s.status g with
  | some (.awaiting p) => some p
  | _ => none

/-- The futures of async functions `p`, `q`, … each of which is suspended in the `co_await` of the
next, and the last in that of a `Future` object. -/
inductive Chain (s : Tasks V E) : ℕ → List ℕ → Prop where
  | object {p c q : ℕ} (hself : s.selfOf p = some c) (hstatus : s.status c = some (.awaiting q))
      (hobject : s.selfOf q = none) : Chain s p [p]
  | cons {p c q d : ℕ} {l : List ℕ} (hself : s.selfOf p = some c)
      (hstatus : s.status c = some (.awaiting q)) (hasync : s.selfOf q = some d)
      (hrest : Chain s q l) : Chain s p (p :: l)

/-- An async function that has finished is awaited again only when the coroutine that awaited it last
is not suspended in the `co_await` of an async function. -/
def AwaitsFresh (s : Tasks V E) : TaskAction V E → Prop
  | .await _ p _ => (s.selfOf p).bind s.status = some .done →
      ((s.waitingOf p).bind s.awaited).bind s.selfOf = none
  | _ => True

instance (s : Tasks V E) (a : TaskAction V E) : Decidable (s.AwaitsFresh a) :=
  match a with
  | .await _ _ _ => inferInstanceAs (Decidable (_ → _))
  | .spawn | .call | .make | .move _ | .finish _ _ | .complete _ _ | .cancel _ => isTrue trivial

end Tasks

end Xyco.Runtime
