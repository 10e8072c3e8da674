import Xyco.Io.UringRegistry

/-!
# A stream on io_uring

`read`, `write` and `shutdown` of a `TcpStream` share one event: one `future_`, and one `IoExtra` with
its arguments, its result and its flags. Operations are numbered in the order they are created, and so
are the requests. Any thread may poll a future; it then submits to the ring of its own registry, and
it is the `select` of that registry that consumes the completion. `ready` are the threads whose
`select` has returned the event and that have not called `wake` yet.
-/

namespace Xyco.Net

open Io

/-- What an operation returns. -/
inductive StreamResult where
  | value (n : ℤ)
  | done
  | error (errno : ℤ)
deriving DecidableEq, Repr

inductive OpPhase where
  | fresh
  /-- `poll` has returned `Pending` -/
  | suspended
  /-- in the run queue -/
  | queued
  /-- `poll` has returned `Ready` -/
  | ready (result : StreamResult)
  /-- the future is destroyed after that -/
  | finished (result : StreamResult)
  /-- the future is destroyed before that -/
  | abandoned
deriving DecidableEq, Repr

/-- The future is suspended or has not been destroyed since. -/
def OpPhase.active : OpPhase → Bool
  | .suspended | .queued | .ready _ => true
  | _ => false

/-- A future of the stream. `request` is the request that it has submitted last. -/
structure StreamOp where
  args : UringArgs
  phase : OpPhase
  request : Option ℕ
deriving DecidableEq, Repr

inductive RequestPhase where
  | inFlight
  | completed (res : ℤ)
  /-- by `select` -/
  | consumed (res : ℤ)
deriving DecidableEq, Repr

/-- The request is not consumed. -/
def RequestPhase.outstanding : RequestPhase → Bool
  | .consumed _ => false
  | _ => true

/-- A request that the operation `op` has submitted on a thread. -/
structure StreamRequest where
  op : ℕ
  args : UringArgs
  thread : ℕ
  phase : RequestPhase
deriving DecidableEq, Repr

/-- `registered` are the threads that have the event in `registered_events_`. `fault` says that an
iterator was used that is `end()`, or a future that is null or destroyed. -/
structure UringStream where
  ops : List StreamOp
  requests : List StreamRequest
  future : Option ℕ
  extra : UringExtra
  registered : List ℕ
  ready : List ℕ
  fault : Bool
deriving DecidableEq, Repr

inductive StreamAction where
  | read (buf len : ℕ)
  | write (buf len : ℕ)
  | shutdown (how : Shutdown)
  /-- a thread polls the future of an operation -/
  | poll (i thread : ℕ)
  /-- the kernel completes a request -/
  | complete (r : ℕ) (res : ℤ)
  /-- `select` consumes the completion of a request -/
  | consume (r : ℕ)
  | wake (thread : ℕ)
  /-- the coroutine goes on with the result, and the future is destroyed -/
  | finish (i : ℕ)
  /-- the suspended coroutine is destroyed -/
  | abandon (i : ℕ)
deriving DecidableEq, Repr

/-- What `poll` makes of `return_`. -/
def StreamOp.output (op : StreamOp) (ret : ℤ) : StreamResult :=
  match op.args with
  | .shutdown _ => if ret < 0 then .error (-ret) else .done
  | _ => if 0 ≤ ret then .value ret else .error (-ret)

namespace UringStream

def init (fd : ℤ) : UringStream where
  ops := []
  requests := []
  future := none
  extra := ⟨.read 0 0 0, fd, 0, false, false⟩
  registered := []
  ready := []
  fault := false

/-- `TcpStream::read`, `write` or `shutdown` makes its future, with the arguments for `IoExtra`. -/
def create (s : UringStream) (args : UringArgs) : UringStream :=
  { s with ops := s.ops ++ [⟨args, .fresh, none⟩] }

def setOp (s : UringStream) (i : ℕ) (op : StreamOp) : UringStream :=
  { s with ops := s.ops.set i op }

/-- `Register` of the event on a thread, for the operation `i`. The ring has a free entry. -/
def register (s : UringStream) (i thread : ℕ) : UringStream :=
  { s with
    requests := s.requests ++ [⟨i, s.extra.args, thread, .inFlight⟩]
    registered := if s.extra.registered then s.registered else s.registered ++ [thread]
    extra := { s.extra with registered := true } }

/-- `poll`. -/
def poll (s : UringStream) (i thread : ℕ) : Option UringStream :=
  match s.ops[i]? with
  | none => none
  | some op =>
    if op.phase = .fresh ∨ op.phase = .queued then
      if s.extra.completed then
        some ({ s with extra := { s.extra with completed := false } }.setOp i
          { op with phase := .ready (op.output s.extra.ret) })
      else
        some (({ s with future := some i, extra := { s.extra with args := op.args } }.register
          i thread).setOp i { op with phase := .suspended, request := some s.requests.length })
    else none

/-- The kernel completes the request `r` and posts its result. -/
def complete (s : UringStream) (r : ℕ) (res : ℤ) : Option UringStream :=
  match s.requests[r]? with
  | none => none
  | some q =>
    if q.phase = .inFlight then
      some { s with requests := s.requests.set r { q with phase := .completed res } }
    else none

/-- The body of the loop of `select`, on the thread of the request. -/
def consume (s : UringStream) (r : ℕ) : Option UringStream :=
  match s.requests[r]? with
  | none => none
  | some q =>
    match q.phase with
    | .completed res =>
      if q.thread ∈ s.registered then
        some { s with
          requests := s.requests.set r { q with phase := .consumed res }
          extra := { s.extra with ret := res, completed := true, registered := false }
          registered := s.registered.erase q.thread
          ready := s.ready ++ [q.thread] }
      else
        some { s with
          requests := s.requests.set r { q with phase := .consumed res }
          extra := { s.extra with ret := res }
          fault := true }
    | _ => none

/-- `wake` of the event, which `select` has returned on a thread. -/
def wake (s : UringStream) (thread : ℕ) : Option UringStream :=
  if thread ∈ s.ready then
    match s.future with
    | none => some { s with ready := s.ready.erase thread, fault := true }
    | some i =>
      match s.ops[i]? with
      | none => none
      | some op =>
        if op.phase = .suspended then
          some ({ s with ready := s.ready.erase thread, future := none }.setOp i
            { op with phase := .queued })
        else some { s with ready := s.ready.erase thread, future := none, fault := true }
  else none

/-- The futures of `read` and `write` reset `future_` when they are destroyed; `shutdown` does it
after `co_await`. -/
def finish (s : UringStream) (i : ℕ) : Option UringStream :=
  match s.ops[i]? with
  | none => none
  | some op =>
    match op.phase with
    | .ready result => some ({ s with future := none }.setOp i { op with phase := .finished result })
    | _ => none

/-- The future of `shutdown` has no destructor of its own. -/
def abandon (s : UringStream) (i : ℕ) : Option UringStream :=
  match s.ops[i]? with
  | none => none
  | some op =>
    if op.phase = .suspended ∨ op.phase = .queued then
      match op.args with
      | .shutdown _ => some (s.setOp i { op with phase := .abandoned })
      | _ => some ({ s with future := none }.setOp i { op with phase := .abandoned })
    else none

/-- The calls on a `TcpStream`, the polls of its futures, the kernel, and `select` and `wake`. -/
def step (s : UringStream) : StreamAction → Option UringStream
  | .read buf len => some (s.create (.read buf len 0))
  | .write buf len => some (s.create (.write buf len 0))
  | .shutdown how => some (s.create (.shutdown how))
  | .poll i thread => s.poll i thread
  | .complete r res => s.complete r res
  | .consume r => s.consume r
  | .wake thread => s.wake thread
  | .finish i => s.finish i
  | .abandon i => s.abandon i

/-- The request of the operation `i` is consumed with the result `res`. -/
def Answered (s : UringStream) (i : ℕ) (op : StreamOp) (res : ℤ) : Prop :=
  ∃ r q, op.request = some r ∧ s.requests[r]? = some q ∧ q.op = i ∧ q.phase = .consumed res

/-- An operation returns the result of its own request, and one that is suspended with its request
consumed is about to be woken. -/
structure Paired (s : UringStream) : Prop where
  own : ∀ (i : ℕ) op, s.ops[i]? = some op → ∀ result,
    op.phase = .ready result ∨ op.phase = .finished result →
    ∃ res, s.Answered i op res ∧ result = op.output res
  woken : ∀ (i : ℕ) op, s.ops[i]? = some op → op.phase = .suspended → ∀ res, s.Answered i op res →
    s.future = some i ∧ s.ready ≠ []

/-- Nothing is left of earlier operations: no request, no result and no future. -/
def Clear (s : UringStream) : Prop :=
  s.extra.completed = false ∧ s.ready = [] ∧ (∀ q ∈ s.requests, q.phase.outstanding = false) ∧
  ∀ op ∈ s.ops, op.phase.active = false

instance (s : UringStream) : Decidable s.Clear := inferInstanceAs (Decidable (_ ∧ _ ∧ _ ∧ _))

/-- The first `poll` of an operation is not before the earlier ones are over. -/
def Sequential (s : UringStream) : StreamAction → Prop
  | .poll i _ => s.ops[i]?.map StreamOp.phase = some .fresh → s.Clear
  | _ => True

instance (s : UringStream) (a : StreamAction) : Decidable (s.Sequential a) := by
  cases a <;> unfold Sequential <;> infer_instance

end UringStream

end Xyco.Net
