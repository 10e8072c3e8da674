import Xyco.Io.EpollRegistry

/-!
# A socket on epoll

`read` and `write` of a `TcpStream`, or `accept` of a `TcpListener`, one after the other. All of them
share the event of the object: one `future_`, and one `IoExtra` with its interest and its state.

`timeout` and `select` abandon an operation. They call `cancel`, which sets a flag and does not touch
the future: it stays where it is, in `future_` or in the run queue, is polled when its turn comes, and
is destroyed when it is done. The task that has abandoned it goes on to the next operation meanwhile.

A poll is one step, and its system call has the result that the run says. Between polls `epoll_wait`
reports the event, `select` handles the report and `wake` takes `future_`, each at any time later.
`Register` and `reregister` succeed.
-/

namespace Xyco.Net

open Io

/-- `IoExtra::Interest`. -/
inductive Interest where
  | read
  | write
  | all
deriving DecidableEq, Repr

/-- The events that `epoll_wait` may report for an interest (`to_sys`). -/
def Interest.allows (i : Interest) (mask : EpollMask) : Bool :=
  (!mask.pollin || decide (i ≠ .write)) && (!mask.pollout || decide (i ≠ .read)) && !mask.pollpri &&
    (mask.pollin || mask.pollout || mask.pollerr || mask.pollhup || mask.pollrdhup)

/-- The entry of the epoll set. -/
structure EpollEntry where
  interest : Interest
  armed : Bool
deriving DecidableEq, Repr

inductive OpKind where
  | read
  | write
  | accept
deriving DecidableEq, Repr

def OpKind.interest : OpKind → Interest
  | .write => .write
  | _ => .read

/-- What `read`, `write` or `accept4` returns; `again` is `EAGAIN` or `EWOULDBLOCK`. -/
inductive SysResult where
  | ok
  | again
  | failed
deriving DecidableEq, Repr

/-- What a poll does. -/
inductive Decision where
  /-- `Register`, and `Pending` -/
  | register
  /-- `reregister`, and `Pending` -/
  | reregister
  | ready
  /-- `Pending`, and nothing else -/
  | pending
deriving DecidableEq, Repr

/-- `poll` of the three futures, up to what it decides. -/
def decision (kind : OpKind) (state : EventState) (res : SysResult) : Decision :=
  if !state.registered then .register
  else
    match kind with
    | .read =>
      if (state.error || state.readable) && decide (res ≠ .again) then .ready else .reregister
    | .write => if state.error || state.writable then .ready else .reregister
    | .accept =>
      if state.error then .ready
      else if state.readable then if res = .again then .reregister else .ready
      else .pending

/-- A `read` that succeeds clears `Readable`. -/
def afterPoll (kind : OpKind) (state : EventState) (res : SysResult) : EventState :=
  if kind = .read ∧ state.registered = true ∧ (state.error || state.readable) = true ∧ res = .ok then
    { state with readable := false }
  else state

inductive SocketPhase where
  | fresh
  | suspended
  | queued
  /-- `poll` has returned `Ready` -/
  | ready
  /-- the future is destroyed -/
  | over
deriving DecidableEq, Repr

/-- A future of `read`, `write` or `accept`. -/
structure SocketOp where
  kind : OpKind
  phase : SocketPhase
  abandoned : Bool
deriving DecidableEq, Repr

/-- A task waits for the operation. -/
def SocketOp.waits (x : SocketOp) : Bool := !x.abandoned && decide (x.phase = .suspended)

/-- The object and its event. `ops` are the operations so far, and `future` has the number of one of
them. `listed` counts the event in `registered_events_`, `reports` are the reports that `select` has
not handled and `wakes` the events it has returned that are not woken. `polled` is the operation whose
poll has returned `Pending` in the last step. -/
structure EpollSocket where
  listener : Bool
  state : EventState
  interest : Interest
  future : Option ℕ
  entry : Option EpollEntry
  listed : ℕ
  reports : List EpollMask
  wakes : ℕ
  ops : List SocketOp
  polled : Option ℕ
  fault : Bool
deriving DecidableEq, Repr

inductive SocketAction where
  | start (kind : OpKind)
  | poll (i : ℕ) (res : SysResult)
  | report (mask : EpollMask)
  | handle
  | wake
  | finish (i : ℕ)
  | abandon (i : ℕ)
deriving DecidableEq, Repr

namespace EpollSocket

/-- A stream as `connect` and `accept` make it. -/
def stream (writable readable : Bool) : EpollSocket where
  listener := false
  state := ⟨false, false, readable, writable, false⟩
  interest := .all
  future := none
  entry := none
  listed := 0
  reports := []
  wakes := 0
  ops := []
  polled := none
  fault := false

def listening : EpollSocket := { stream false false with listener := true, interest := .read }

/-- A stream or a listener before its first operation. -/
def New (s : EpollSocket) : Prop :=
  (∃ writable readable, s = stream writable readable) ∨ s = listening

/-- `TcpStream::read`, `TcpStream::write` or `TcpListener::accept` is called, after the operation
before it is over or abandoned. -/
def start (s : EpollSocket) (kind : OpKind) : Option EpollSocket :=
  if (∀ x ∈ s.ops, x.phase = .over ∨ x.abandoned = true) ∧ (kind = .accept ↔ s.listener = true) then
    some { s with ops := s.ops ++ [⟨kind, .fresh, false⟩], polled := none }
  else none

def setOp (s : EpollSocket) (i : ℕ) (x : SocketOp) : EpollSocket := { s with ops := s.ops.set i x }

/-- The future stores itself, and its interest; `accept` keeps the one of the constructor. -/
def store (s : EpollSocket) (i : ℕ) (kind : OpKind) : EpollSocket :=
  { s with
    future := some i
    interest := if kind = .accept then s.interest else kind.interest }

/-- `IoRegistryImpl::Register`, and `IoRegistryImpl::reregister` but for the flag. -/
def register (s : EpollSocket) : EpollSocket :=
  { s with
    listed := s.listed + 1
    state := { s.state with registered := true }
    entry := some ⟨s.interest, true⟩ }

/-- `return Pending()`. -/
def suspend (s : EpollSocket) (i : ℕ) (x : SocketOp) : EpollSocket :=
  { s.setOp i { x with phase := .suspended } with polled := some i }

/-- `Future::poll` of `TcpStream::read`, `TcpStream::write` and `TcpListener::accept`, in
`await_suspend` or taken from the run queue. The last branch is the last line of `accept`. -/
def poll (s : EpollSocket) (i : ℕ) (res : SysResult) : Option EpollSocket :=
  match s.ops[i]? with
  | none => none
  | some x =>
    if x.phase = .fresh ∨ x.phase = .queued then
      match decision x.kind s.state res with
      | .register => some ((s.store i x.kind).register.suspend i x)
      | .reregister => some ((s.store i x.kind).register.suspend i x)
      | .ready =>
        some { s.setOp i { x with phase := .ready } with
          state := afterPoll x.kind s.state res, polled := none }
      | .pending => some (s.suspend i x)
    else none

/-- `epoll_wait` reports the event and disarms it. -/
def report (s : EpollSocket) (mask : EpollMask) : Option EpollSocket :=
  match s.entry with
  | none => none
  | some e =>
    if e.armed = true ∧ e.interest.allows mask = true then
      some { s with
        entry := some { e with armed := false }, reports := s.reports ++ [mask], polled := none }
    else none

/-- The body of the loop of `IoRegistryImpl::select`. -/
def handle (s : EpollSocket) : Option EpollSocket :=
  match s.reports with
  | [] => none
  | mask :: reports =>
    if s.listed = 0 then some { s with reports := reports, polled := none, fault := true }
    else
      some { s with
        reports := reports
        state := toState mask
        listed := s.listed - 1
        wakes := s.wakes + 1
        polled := none }

/-- The suspended operation in `future_`. -/
def bound (s : EpollSocket) : Option (ℕ × SocketOp) :=
  match s.future with
  | none => none
  | some i =>
    match s.ops[i]? with
    | none => none
    | some x => if x.phase = .suspended then some (i, x) else none

/-- `RuntimeCore::wake` of the event: it takes `future_` and puts it into the run queue. A null
pointer there is a fault. -/
def wake (s : EpollSocket) : Option EpollSocket :=
  if s.wakes = 0 then none
  else
    match s.bound with
    | some (i, x) =>
      some { s.setOp i { x with phase := .queued } with
        wakes := s.wakes - 1, future := none, polled := none }
    | none => some { s with wakes := s.wakes - 1, future := none, polled := none, fault := true }

/-- The coroutine is resumed after `Ready`, and the future destroyed: `~Future` resets `future_`. -/
def finish (s : EpollSocket) (i : ℕ) : Option EpollSocket :=
  match s.ops[i]? with
  | none => none
  | some x =>
    if x.phase = .ready then
      some { s.setOp i { x with phase := .over } with future := none, polled := none }
    else none

/-- `SelectFuture::poll` cancels the branch of the operation. Its future lives on. -/
def abandon (s : EpollSocket) (i : ℕ) : Option EpollSocket :=
  match s.ops[i]? with
  | none => none
  | some x =>
    if x.phase ≠ .over then some { s.setOp i { x with abandoned := true } with polled := none }
    else none

def step (s : EpollSocket) : SocketAction → Option EpollSocket
  | .start kind => s.start kind
  | .poll i res => s.poll i res
  | .report mask => s.report mask
  | .handle => s.handle
  | .wake => s.wake
  | .finish i => s.finish i
  | .abandon i => s.abandon i

/-- The event is armed with the interest of the operation `x`. -/
def ArmedFor (s : EpollSocket) (x : SocketOp) : Prop := s.entry = some ⟨x.kind.interest, true⟩

/-- A poll that returns `Pending` leaves the event armed for its operation, with its future. Until the
future of an operation that a task waits for is woken, the event stays armed or its report is on the
way. -/
def Served (s : EpollSocket) : Prop :=
  ∀ i x, s.ops[i]? = some x →
    (s.polled = some i → s.future = some i ∧ s.ArmedFor x) ∧
    (x.waits = true → s.future = some i ∧ (s.ArmedFor x ∨ s.reports ≠ [] ∨ 0 < s.wakes))

/-- A task waits for an operation other than `i`. -/
def Contended (s : EpollSocket) (i : ℕ) : Prop :=
  ∃ j < s.ops.length, j ≠ i ∧ s.ops[j]?.any SocketOp.waits

instance (s : EpollSocket) (i : ℕ) : Decidable (s.Contended i) :=
  inferInstanceAs (Decidable (∃ j < s.ops.length, j ≠ i ∧ s.ops[j]?.any SocketOp.waits))

/-- An `accept` is not polled while the event is registered and neither readable nor in error. While a
task waits for an operation, no other one, abandoned before, is polled without `Ready` or
destroyed. -/
def Listens (s : EpollSocket) : SocketAction → Prop
  | .poll i res => ∀ x ∈ s.ops[i]?,
      (x.kind = .accept → s.state.registered = true → s.state.error = true ∨ s.state.readable = true) ∧
      (decision x.kind s.state res ≠ .ready → ¬ s.Contended i)
  | .finish i => ¬ s.Contended i
  | _ => True

instance (s : EpollSocket) (a : SocketAction) : Decidable (s.Listens a) := by
  cases a <;> unfold Listens <;> infer_instance

end EpollSocket

end Xyco.Net
