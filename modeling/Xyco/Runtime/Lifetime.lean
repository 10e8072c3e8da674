import Xyco.Machine.Heap
import Xyco.Runtime.Future

/-!
# The lifetime of coroutines and futures

Coroutine frames and `Future` objects are allocated and destroyed here, and every pointer that the
code follows is looked up: `fault` says that one of them was dangling or null, or that a coroutine was
resumed or destroyed where that is not defined.

What coroutines and the code around them do is up to the run: any object may be moved, assigned to,
spawned, awaited, cancelled or destroyed at any time. The variables in a frame that goes away are
destroyed by steps of their own.

A coroutine runs below an `await_suspend` on the stack if it was awaited, or goes on after one that
was, in the same turn of a worker. An exception that leaves a task there is thrown again in the
coroutine that called `await_suspend`, which has finished.
-/

namespace Xyco.Runtime

/-- A `Future`. `void` says that it is a `Future<void>`, and `wrapper` that it is the variable
`future_wrapper` of `spawn_impl`. -/
structure FutureObject where
  void : Bool
  wrapper : Bool
  self : Option ℕ
  waiting : Option ℕ
  waited : Option ℕ
deriving DecidableEq, Repr

/-- A coroutine frame, with `future_` of its promise. `nested` says of a coroutine that runs that an
`await_suspend` is on the stack below it. -/
structure CoroutineFrame where
  void : Bool
  future : Option ℕ
  status : Status
  nested : Bool
deriving DecidableEq, Repr

/-- The objects, the frames and the entries of `handles_` for spawned coroutines. -/
structure Lifetimes where
  futures : Heap FutureObject
  frames : Heap CoroutineFrame
  handles : List ℕ
  fault : Bool
deriving DecidableEq, Repr

inductive LifetimeAction where
  | call (void : Bool)
  | make (void : Bool)
  | move (p : ℕ)
  | assign (p q : ℕ)
  | spawnImpl (p : ℕ)
  | start (c : ℕ)
  | await (g p : ℕ) (ready : Bool)
  | finish (c : ℕ) (threw : Bool)
  | complete (p : ℕ)
  | cancel (p : ℕ)
  | drop (p : ℕ)
deriving DecidableEq, Repr

/-- What a move leaves behind. -/
def FutureObject.moved (f : FutureObject) : FutureObject :=
  { f with self := none, waiting := none, waited := none }

namespace Lifetimes

def init : Lifetimes := ⟨.empty, .empty, [], false⟩

def status (s : Lifetimes) (c : ℕ) : Option Status := (s.frames.read c).map CoroutineFrame.status

/-- A pointer is followed; `ok` says that it can be. -/
def check (s : Lifetimes) (ok : Bool) : Lifetimes := { s with fault := s.fault || !ok }

def setStatus (s : Lifetimes) (c : ℕ) (status : Status) : Lifetimes :=
  { s with frames := s.frames.update c fun frame => { frame with status := status } }

def setRunning (s : Lifetimes) (c : ℕ) (nested : Bool) : Lifetimes :=
  { s with
    frames := s.frames.update c fun frame => { frame with status := .running, nested := nested } }

/-- `promise()` of the coroutine and `future_` in it can be followed. Only a `Future<void>` tests
`future_` for null. -/
def promiseUsable (s : Lifetimes) (c : ℕ) : Bool :=
  match s.frames.read c with
  | none => false
  | some frame =>
    match frame.future with
    | none => frame.void
    | some p => (s.futures.read p).isSome

/-- `set_waited` of the promise of a coroutine. -/
def setWaited (s : Lifetimes) (c : ℕ) (waited : Option ℕ) : Lifetimes :=
  match (s.frames.read c).bind CoroutineFrame.future with
  | none => s.check (s.promiseUsable c)
  | some p =>
    { s.check (s.promiseUsable c) with
      futures := s.futures.update p fun f => { f with waited := waited } }

/-- `self_.promise().future_ = future`, if `self_` is not null. -/
def bindPromise (s : Lifetimes) (self future : Option ℕ) : Lifetimes :=
  match self with
  | none => s
  | some c =>
    { s.check (s.frames.read c).isSome with
      frames := s.frames.update c fun frame => { frame with future := future } }

def freeFrame (s : Lifetimes) (c : ℕ) : Lifetimes := { s with frames := s.frames.free c }

/-- `self_.destroy()`, which is defined for a suspended coroutine. -/
def destroy (s : Lifetimes) (c : ℕ) : Lifetimes :=
  (s.check (s.status c != none && s.status c != some .running)).freeFrame c

/-- A call of an async function. -/
def call (s : Lifetimes) (void wrapper : Bool) : Lifetimes :=
  { s with
    futures := s.futures.alloc ⟨void, wrapper, some s.frames.next, none, none⟩
    frames := s.frames.alloc ⟨void, some s.futures.next, .created, false⟩ }

/-- An object of a class derived from `Future` is made. -/
def make (s : Lifetimes) (void : Bool) : Lifetimes :=
  { s with futures := s.futures.alloc ⟨void, false, none, none, none⟩ }

/-- `operator=(Future &&)`: `q` is assigned `std::move` of `p`. The coroutine that `q` had is not
destroyed, and an object that is assigned to itself loses its own. -/
def moveAssign (s : Lifetimes) (p q : ℕ) (f : FutureObject) : Lifetimes :=
  { s.bindPromise (if p = q then none else f.self) (some q) with
    futures := (s.futures.update q fun g =>
      { g with self := f.self, waiting := f.waiting, waited := f.waited }).update p
        FutureObject.moved }

/-- `Future(Future &&)`. -/
def moveConstruct (s : Lifetimes) (p : ℕ) (f : FutureObject) : Lifetimes :=
  (s.make f.void).moveAssign p s.futures.next f

/-! `future_wrapper` is a variable of `spawn_impl`, which only calls `get_handle` on it. -/

def move (s : Lifetimes) (p : ℕ) : Option Lifetimes :=
  match s.futures.read p with
  | none => none
  | some f => if f.wrapper = false then some (s.moveConstruct p f) else none

def assign (s : Lifetimes) (p q : ℕ) : Option Lifetimes :=
  match s.futures.read p, s.futures.read q with
  | some f, some g =>
    if f.wrapper = false ∧ g.wrapper = false ∧ f.void = g.void then some (s.moveAssign p q f)
    else none
  | _, _ => none

/-- `spawn_impl` up to its end: `spawn_with_exception_handling` is called with the `Future`, and its
handle is put into `handles_`. -/
def spawnImpl (s : Lifetimes) (p : ℕ) : Option Lifetimes :=
  match s.futures.read p with
  | none => none
  | some f =>
    if f.wrapper = false then
      some { (s.moveConstruct p f).call true true with handles := s.frames.next :: s.handles }
    else none

/-- A worker takes a coroutine out of `handles_` and resumes it. -/
def start (s : Lifetimes) (c : ℕ) : Option Lifetimes :=
  if c ∈ s.handles then
    some ({ s.check (s.status c == some Status.created) with handles := s.handles.erase c }.setRunning
      c false)
  else none

/-- `await_resume` of the object `f`. -/
def awaitResume (s : Lifetimes) (f : FutureObject) : Lifetimes :=
  match f.waiting with
  | none => s
  | some h => s.setWaited h none

/-- The coroutine `h` is resumed in the `co_await` of the object `p`. -/
def resume (s : Lifetimes) (h p : ℕ) (f : FutureObject) (nested : Bool) : Lifetimes :=
  ((s.check (s.status h == some (.awaiting p))).awaitResume f).setRunning h nested

/-- `await_suspend` of the coroutine `g`, up to where the coroutine in `self_` is resumed or `poll` is
called. -/
def suspend (s : Lifetimes) (g p : ℕ) (self : Option ℕ) : Lifetimes :=
  { s with futures := s.futures.update p fun f => { f with waiting := some g } }.setWaited g self

/-- The running coroutine `g` executes `co_await`. `ready` is what the `poll` of an object returns. A
coroutine that has started and not finished cannot be resumed from here. -/
def await (s : Lifetimes) (g p : ℕ) (ready : Bool) : Option Lifetimes :=
  match s.futures.read p with
  | none => none
  | some f =>
    if s.status g = some .running ∧ f.wrapper = false then
      match f.self with
      | none =>
        if ready then some ((s.suspend g p none).setWaited g none)
        else some ((s.suspend g p none).setStatus g (.awaiting p))
      | some c =>
        match s.status c with
        | none => some (s.check false)
        | some .created =>
          some (((s.suspend g p (some c)).setStatus g (.awaiting p)).setRunning c true)
        | some .done => some (s.awaitResume f)
        | some _ => some ((s.suspend g p (some c)).check false)
    else none

/-- The running coroutine `c` returns or throws, and executes `final_suspend`. If nobody waits, it
runs off its end, and its frame is destroyed. -/
def finish (s : Lifetimes) (c : ℕ) (threw : Bool) : Option Lifetimes :=
  match s.frames.read c with
  | some ⟨void, future, .running, nested⟩ =>
    match future with
    | none =>
      -- `unhandled_exception` throws if there is no `Future`, which leaves the coroutine at its
      -- final suspend point
      if threw then some ((s.check (void && !nested)).setStatus c .done)
      else some ((s.check void).freeFrame c)
    | some p =>
      match s.futures.read p with
      | none => some ((s.check false).freeFrame c)
      | some f =>
        match f.waiting with
        | none => some (s.freeFrame c)
        | some h => some ((s.setStatus c .done).resume h p f nested)
  | _ => none

/-- A worker finds the object `p` ready and resumes the coroutine that awaits it. -/
def complete (s : Lifetimes) (p : ℕ) : Option Lifetimes :=
  match s.futures.read p with
  | none => none
  | some f =>
    match f.self, f.waiting with
    | none, some g => if s.status g = some (.awaiting p) then some (s.resume g p f false) else none
    | _, _ => none

/-- The recursion of `cancel` through `waited_`, up to a number of calls: the pointers that it follows
are good. -/
def cancelUsable (s : Lifetimes) : ℕ → ℕ → Bool
  | 0, _ => true
  | calls + 1, p =>
    match s.futures.read p with
    | none => false
    | some f =>
      match f.waited with
      | none => true
      | some c =>
        match (s.frames.read c).bind CoroutineFrame.future with
        | none => false
        | some q => s.cancelUsable calls q

/-- `cancel`. -/
def cancel (s : Lifetimes) (p : ℕ) : Option Lifetimes :=
  match s.futures.read p with
  | none => none
  | some _ => some (s.check (s.cancelUsable s.futures.next p))

/-- What the destructor of `f` does to its coroutine. -/
def release (s : Lifetimes) (f : FutureObject) : Lifetimes :=
  match f.self with
  | none => s
  | some c => if f.void && f.waiting.isNone then s.bindPromise (some c) none else s.destroy c

/-- `~Future`. -/
def drop (s : Lifetimes) (p : ℕ) : Option Lifetimes :=
  match s.futures.read p with
  | none => none
  | some f => some { s.release f with futures := s.futures.free p }

def step (s : Lifetimes) : LifetimeAction → Option Lifetimes
  | .call void => some (s.call void false)
  | .make void => some (s.make void)
  | .move p => s.move p
  | .assign p q => s.assign p q
  | .spawnImpl p => s.spawnImpl p
  | .start c => s.start c
  | .await g p ready => s.await g p ready
  | .finish c threw => s.finish c threw
  | .complete p => s.complete p
  | .cancel p => s.cancel p
  | .drop p => s.drop p

/-! ## What the code relies on -/

/-- No coroutine is suspended in a `co_await` of the object. -/
def unawaited (s : Lifetimes) (p : ℕ) : Bool :=
  s.frames.all fun frame => frame.status != .awaiting p

/-- No object is moved, assigned to, spawned, awaited or destroyed while a coroutine is suspended in a
`co_await` of it. -/
def leavesAwaited (s : Lifetimes) : LifetimeAction → Bool
  | .move p | .spawnImpl p | .await _ p _ | .drop p => s.unawaited p
  | .assign p q => s.unawaited p && s.unawaited q
  | _ => true

/-- Some object has the coroutine in `self_`, or a worker will resume it, or it has started and not
finished. -/
def Held (s : Lifetimes) (c : ℕ) : Prop :=
  (∃ p f, s.futures.read p = some f ∧ f.self = some c) ∨ c ∈ s.handles ∨
    ∃ x, s.status c = some x ∧ x ≠ .created ∧ x ≠ .done

/-- No frame is left behind. -/
def NoneLeaked (s : Lifetimes) : Prop := ∀ c, s.frames.read c ≠ none → s.Held c

/-- A `Future` with a coroutine is not assigned to, a `Future<void>` with a coroutine is not destroyed
before it was awaited, except `future_wrapper`, and a task does not end with an exception after
`future_wrapper` is gone. -/
def keepsFrames (s : Lifetimes) : LifetimeAction → Bool
  | .assign _ q => (s.futures.read q).all fun f => f.self.isNone
  | .drop p => (s.futures.read p).all fun f =>
    f.wrapper || !f.void || f.waiting.isSome || f.self.isNone
  | .finish c threw => !threw || (s.frames.read c).any fun frame => frame.future.isSome
  | _ => true

end Lifetimes

end Xyco.Runtime
