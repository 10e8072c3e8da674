import Mathlib.Logic.Function.Basic
import Xyco.Net.EpollSocket

/-!
# A stream on epoll, in both directions

One task reads from a `TcpStream` and another one writes to it, on any threads. Both operations use
the one event of the stream. A poll is a sequence of steps: the test of the state with the system
call, the stores to `future_` and `interest_`, the registry up to `epoll_ctl`, and `epoll_ctl`. So are
a report of the event: `epoll_wait`, `select`, and `wake`, which reads `future_` and later resets it
and puts what it has read into the run queue.
-/

namespace Xyco.Net

open Io

inductive Direction where
  | read
  | write
deriving DecidableEq, Repr

def Direction.other : Direction → Direction
  | .read => .write
  | .write => .read

def Direction.kind : Direction → OpKind
  | .read => .read
  | .write => .write

def Direction.interest (d : Direction) : Interest := d.kind.interest

/-- Where an operation is. `first` says that it calls `Register` and not `reregister`. -/
inductive DuplexPoint where
  /-- there is no operation -/
  | idle
  /-- before the test of `poll` -/
  | polling
  /-- before the store to `future_` -/
  | storing (first : Bool)
  /-- before the registry is called -/
  | entering (first : Bool)
  /-- before `epoll_ctl`, with the interest it is called for -/
  | arming (first : Bool) (interest : Interest)
  /-- `poll` has returned `Pending` -/
  | suspended
  /-- `poll` has returned `Ready` -/
  | ready
  /-- `epoll_ctl` has failed -/
  | failed
deriving DecidableEq, Repr

/-- `queued` says that the future is in the run queue. -/
structure DuplexTask where
  point : DuplexPoint
  queued : Bool
deriving DecidableEq, Repr

/-- `grabbed` is what the threads in `wake` have read from `future_`. The other fields are those of
`EpollSocket`. -/
structure EpollDuplex where
  state : EventState
  interest : Interest
  future : Option Direction
  entry : Option EpollEntry
  listed : ℕ
  reports : List EpollMask
  wakes : ℕ
  grabbed : List (Option Direction)
  tasks : Direction → DuplexTask
  fault : Bool

inductive DuplexAction where
  /-- a new operation -/
  | start (d : Direction)
  /-- a worker takes the future from the run queue -/
  | take (d : Direction)
  | test (d : Direction) (res : SysResult)
  | store (d : Direction)
  | enter (d : Direction)
  | ctl (d : Direction)
  /-- the future is destroyed -/
  | finish (d : Direction)
  | report (mask : EpollMask)
  | handle
  /-- `wake` reads `future_` -/
  | grab
  /-- `wake` resets `future_` and puts what it has read into the run queue -/
  | hand (k : ℕ)
deriving DecidableEq, Repr

namespace DuplexPoint

/-- The poll is on its way to `Pending`. -/
def working : DuplexPoint → Bool
  | .storing _ | .entering _ | .arming _ _ => true
  | _ => false

end DuplexPoint

/-- The poll has returned `Pending`, and the future was not handed to the run queue since. -/
def DuplexTask.parked (x : DuplexTask) : Bool := decide (x.point = .suspended) && !x.queued

namespace EpollDuplex

def init (writable readable : Bool) : EpollDuplex where
  state := ⟨false, false, readable, writable, false⟩
  interest := .all
  future := none
  entry := none
  listed := 0
  reports := []
  wakes := 0
  grabbed := []
  tasks _ := ⟨.idle, false⟩
  fault := false

def setTask (s : EpollDuplex) (d : Direction) (x : DuplexTask) : EpollDuplex :=
  { s with tasks := Function.update s.tasks d x }

def goTo (s : EpollDuplex) (d : Direction) (p : DuplexPoint) : EpollDuplex :=
  s.setTask d { s.tasks d with point := p }

def start (s : EpollDuplex) (d : Direction) : Option EpollDuplex :=
  if (s.tasks d).point = .idle then some (s.setTask d ⟨.polling, false⟩) else none

def take (s : EpollDuplex) (d : Direction) : Option EpollDuplex :=
  if (s.tasks d).point = .suspended ∧ (s.tasks d).queued = true then
    some (s.setTask d ⟨.polling, false⟩)
  else none

def test (s : EpollDuplex) (d : Direction) (res : SysResult) : Option EpollDuplex :=
  if (s.tasks d).point = .polling then
    match decision d.kind s.state res with
    | .register => some (s.goTo d (.storing true))
    | .reregister => some (s.goTo d (.storing false))
    | .ready => some ({ s with state := afterPoll d.kind s.state res }.goTo d .ready)
    | .pending => some (s.goTo d .suspended)
  else none

def store (s : EpollDuplex) (d : Direction) : Option EpollDuplex :=
  match (s.tasks d).point with
  | .storing first =>
    some ({ s with future := some d, interest := d.interest }.goTo d (.entering first))
  | _ => none

/-- `Register` or `reregister` up to `epoll_ctl`. -/
def enter (s : EpollDuplex) (d : Direction) : Option EpollDuplex :=
  match (s.tasks d).point with
  | .entering first =>
    some ({ s with
      listed := s.listed + 1
      state := { s.state with registered := s.state.registered || first } }.goTo d
        (.arming first s.interest))
  | _ => none

/-- `epoll_ctl` adds an entry that is not there, or changes one that is. -/
def ctl (s : EpollDuplex) (d : Direction) : Option EpollDuplex :=
  match (s.tasks d).point with
  | .arming first interest =>
    if s.entry.isSome = !first then
      some ({ s with entry := some ⟨interest, true⟩ }.goTo d .suspended)
    else some ({ s with listed := s.listed - 1, fault := true }.goTo d .failed)
  | _ => none

def finish (s : EpollDuplex) (d : Direction) : Option EpollDuplex :=
  if (s.tasks d).point = .ready then some ({ s with future := none }.goTo d .idle) else none

def report (s : EpollDuplex) (mask : EpollMask) : Option EpollDuplex :=
  match s.entry with
  | none => none
  | some e =>
    if e.armed = true ∧ e.interest.allows mask = true then
      some { s with entry := some { e with armed := false }, reports := s.reports ++ [mask] }
    else none

def handle (s : EpollDuplex) : Option EpollDuplex :=
  match s.reports with
  | [] => none
  | mask :: reports =>
    if s.listed = 0 then some { s with reports := reports, fault := true }
    else
      some { s with
        reports := reports
        state := toState mask
        listed := s.listed - 1
        wakes := s.wakes + 1 }

def grab (s : EpollDuplex) : Option EpollDuplex :=
  if s.wakes = 0 then none
  else some { s with wakes := s.wakes - 1, grabbed := s.grabbed ++ [s.future] }

def hand (s : EpollDuplex) (k : ℕ) : Option EpollDuplex :=
  match s.grabbed[k]? with
  | none => none
  | some none => some { s with grabbed := s.grabbed.eraseIdx k, future := none, fault := true }
  | some (some d) =>
    if (s.tasks d).point = .suspended ∨ (s.tasks d).point.working = true then
      some ({ s with grabbed := s.grabbed.eraseIdx k, future := none }.setTask d
        { s.tasks d with queued := true })
    else some { s with grabbed := s.grabbed.eraseIdx k, future := none, fault := true }

def step (s : EpollDuplex) : DuplexAction → Option EpollDuplex
  | .start d => s.start d
  | .take d => s.take d
  | .test d res => s.test d res
  | .store d => s.store d
  | .enter d => s.enter d
  | .ctl d => s.ctl d
  | .finish d => s.finish d
  | .report mask => s.report mask
  | .handle => s.handle
  | .grab => s.grab
  | .hand k => s.hand k

/-- Every future that has returned `Pending` and is not in the run queue is the one that the next
readiness event of its direction wakes, or a report of it is on the way. -/
def Woken (s : EpollDuplex) : Prop :=
  ∀ d, (s.tasks d).parked = true → s.future = some d ∧
    (s.entry = some ⟨d.interest, true⟩ ∨ s.reports ≠ [] ∨ 0 < s.wakes ∨ some d ∈ s.grabbed)

/-- The operation is on its way to `Pending`, or waits. -/
def Waiting (s : EpollDuplex) (d : Direction) : Prop :=
  (s.tasks d).point.working = true ∨ (s.tasks d).parked = true

instance (s : EpollDuplex) (d : Direction) : Decidable (s.Waiting d) :=
  inferInstanceAs (Decidable (_ ∨ _))

/-- A poll that does not return `Ready`, and the destruction of a future, come only while the
operation of the other direction does not wait. -/
def Alternates (s : EpollDuplex) : DuplexAction → Prop
  | .test d res => decision d.kind s.state res ≠ .ready → ¬ s.Waiting d.other
  | .finish d => ¬ s.Waiting d.other
  | _ => True

instance (s : EpollDuplex) (a : DuplexAction) : Decidable (s.Alternates a) := by
  cases a <;> unfold Alternates <;> infer_instance

end EpollDuplex

end Xyco.Net
