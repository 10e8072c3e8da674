import Mathlib.Logic.Function.Basic
import Xyco.Machine.Table
import Xyco.Machine.Run

/-!
# The epoll registry

Threads call `Register`, `reregister`, `deregister` and `select` of one registry. A step is a section
under `events_mutex_` or a system call, so the calls of different threads interleave. Events are
numbers, `fd` gives the descriptor of an event, and the kernel has at most one entry for a
descriptor. A system call that adds or changes an entry may fail for any reason.
-/

namespace Xyco.Io

/-- `IoExtra::State`. -/
structure EventState where
  registered : Bool
  pending : Bool
  readable : Bool
  writable : Bool
  error : Bool
deriving DecidableEq, Repr

/-- The bits of `epoll_event::events` that `to_state` reads. -/
structure EpollMask where
  pollin : Bool
  pollout : Bool
  pollerr : Bool
  pollhup : Bool
  pollrdhup : Bool
  pollpri : Bool
deriving DecidableEq, Repr

/-- `to_state`. -/
def toState (mask : EpollMask) : EventState :=
  if mask.pollerr || mask.pollhup || mask.pollrdhup || mask.pollpri then
    ⟨true, false, false, false, true⟩
  else ⟨true, !mask.pollin && !mask.pollout, mask.pollin, mask.pollout, false⟩

/-- An entry of the epoll set. It is disarmed (`EPOLLONESHOT`) when `epoll_wait` reports it. -/
structure Watch where
  event : ℕ
  armed : Bool
deriving DecidableEq, Repr

def Watch.disarm (w : Watch) : Watch := { w with armed := false }

/-- An event that `epoll_wait` has reported. -/
structure ReadyEvent where
  event : ℕ
  mask : EpollMask
deriving DecidableEq, Repr

/-- Where a thread is in its call. -/
inductive CallPoint where
  | idle
  /-- in `Register`, before `epoll_ctl` -/
  | adding (event : ℕ)
  /-- in `reregister`, before `epoll_ctl` -/
  | modifying (event : ℕ)
  /-- in either of them, after a failed `epoll_ctl` -/
  | undoing (event : ℕ)
  /-- in `deregister`, after `epoll_ctl` -/
  | removing (event : ℕ)
  /-- in the loop of `select` -/
  | handling (ready : List ReadyEvent)
deriving DecidableEq, Repr

/-- `IoRegistryImpl`, the epoll set and the threads. `selected` are the events that `select` has
pushed to its argument. `deregistered` says that the call on an event that was the last to complete
is `deregister`, and `failedLookup` that an iterator was used that is `end()`. -/
structure EpollRegistry where
  registeredEvents : List ℕ
  epoll : ℕ → Option Watch
  state : ℕ → EventState
  selected : List ℕ
  threads : List CallPoint
  deregistered : ℕ → Bool
  failedLookup : Bool

inductive EpollAction where
  | register (k event : ℕ)
  | reregister (k event : ℕ)
  | deregister (k event : ℕ)
  | ctl (k : ℕ) (ok : Bool)
  | undo (k : ℕ)
  | remove (k : ℕ)
  | wait (k : ℕ) (ready : List ReadyEvent)
  | handle (k : ℕ)
deriving DecidableEq, Repr

/-- How often a call counts on an event being in `registered_events_`. -/
def CallPoint.holds (p : CallPoint) (event : ℕ) : ℕ :=
  match p with
  | .adding e | .modifying e | .undoing e => if e = event then 1 else 0
  | .handling ready => (ready.map ReadyEvent.event).count event
  | .idle | .removing _ => 0

def CallPoint.removes (p : CallPoint) (event : ℕ) : ℕ :=
  match p with
  | .removing e => if e = event then 1 else 0
  | _ => 0

def CallPoint.isHandling (p : CallPoint) : Bool :=
  match p with
  | .handling _ => true
  | _ => false

namespace EpollRegistry

def maxEvents : ℕ := 10000

def init (n : ℕ) : EpollRegistry where
  registeredEvents := []
  epoll _ := none
  state _ := ⟨false, false, false, false, false⟩
  selected := []
  threads := List.replicate n .idle
  deregistered _ := false
  failedLookup := false

def goTo (s : EpollRegistry) (k : ℕ) (p : CallPoint) : EpollRegistry :=
  { s with threads := s.threads.set k p }

/-- `set_field<Registered, flag>` of an event. -/
def setRegistered (s : EpollRegistry) (event : ℕ) (flag : Bool) : EpollRegistry :=
  { s with state := Function.update s.state event { s.state event with registered := flag } }

/-- The first section of `Register`. -/
def register (s : EpollRegistry) (k event : ℕ) : Option EpollRegistry :=
  if s.threads[k]? = some .idle then
    some (({ s with registeredEvents := s.registeredEvents ++ [event] }.setRegistered event true).goTo
      k (.adding event))
  else none

/-- The first section of `reregister`. -/
def reregister (s : EpollRegistry) (k event : ℕ) : Option EpollRegistry :=
  if s.threads[k]? = some .idle then
    some ({ s with registeredEvents := s.registeredEvents ++ [event] }.goTo k (.modifying event))
  else none

variable (fd : ℕ → ℕ)

/-- The `epoll_ctl` of `Register` or `reregister` succeeds, and the call returns. -/
def watch (s : EpollRegistry) (k event : ℕ) : EpollRegistry :=
  { s with
    epoll := Function.update s.epoll (fd event) (some ⟨event, true⟩)
    deregistered := Function.update s.deregistered event false }.goTo k .idle

/-- `epoll_ctl` with `EPOLL_CTL_ADD` or `EPOLL_CTL_MOD`. `ok` is false if it fails for another reason
than that the entry is there or is not. -/
def ctl (s : EpollRegistry) (k : ℕ) (ok : Bool) : Option EpollRegistry :=
  match s.threads[k]? with
  | some (.adding e) =>
    if ok && (s.epoll (fd e)).isNone then some (s.watch fd k e) else some (s.goTo k (.undoing e))
  | some (.modifying e) =>
    if ok && (s.epoll (fd e)).isSome then some (s.watch fd k e) else some (s.goTo k (.undoing e))
  | _ => none

/-- The second section of `Register` and of `reregister`. -/
def undo (s : EpollRegistry) (k : ℕ) : Option EpollRegistry :=
  match s.threads[k]? with
  | some (.undoing e) =>
    some ({ s with
      registeredEvents := s.registeredEvents.erase e
      deregistered := Function.update s.deregistered e false
      failedLookup := s.failedLookup || !s.registeredEvents.contains e }.goTo k .idle)
  | _ => none

/-- The `epoll_ctl` of `deregister`. Its result does not change what `deregister` does next. -/
def deregister (s : EpollRegistry) (k event : ℕ) : Option EpollRegistry :=
  if s.threads[k]? = some .idle then
    some ({ s with epoll := Function.update s.epoll (fd event) none }.goTo k (.removing event))
  else none

/-- The section of `deregister`. -/
def remove (s : EpollRegistry) (k : ℕ) : Option EpollRegistry :=
  match s.threads[k]? with
  | some (.removing e) =>
    some (({ s with
      registeredEvents := s.registeredEvents.erase e
      deregistered := Function.update s.deregistered e true }.setRegistered e false).goTo k .idle)
  | _ => none

/-- The epoll set has an entry of the event that is armed. -/
def Armed (s : EpollRegistry) (event : ℕ) : Prop := s.epoll (fd event) = some ⟨event, true⟩

instance (s : EpollRegistry) (event : ℕ) : Decidable (s.Armed fd event) :=
  inferInstanceAs (Decidable (_ = _))

/-- `epoll_wait` in `select`, which holds `select_mutex_` until it returns. -/
def wait (s : EpollRegistry) (k : ℕ) (ready : List ReadyEvent) : Option EpollRegistry :=
  if s.threads[k]? = some .idle ∧ s.threads.all (fun p => !p.isHandling) = true ∧
      ready.length ≤ maxEvents ∧ (ready.map ReadyEvent.event).Nodup ∧
      ∀ r ∈ ready, s.Armed fd r.event then
    some ({ s with
      epoll := fun d =>
        if ready.any (fun r => fd r.event == d) then (s.epoll d).map Watch.disarm
        else s.epoll d }.goTo k (.handling ready))
  else none

/-- One round of the loop of `select`, or the return from it. -/
def handle (s : EpollRegistry) (k : ℕ) : Option EpollRegistry :=
  match s.threads[k]? with
  | some (.handling []) => some (s.goTo k .idle)
  | some (.handling (r :: rest)) =>
    if s.registeredEvents.contains r.event then
      some ({ s with
        state := Function.update s.state r.event (toState r.mask)
        selected := s.selected ++ [r.event]
        registeredEvents := s.registeredEvents.erase r.event }.goTo k (.handling rest))
    else some ({ s with failedLookup := true }.goTo k (.handling rest))
  | _ => none

def step (s : EpollRegistry) : EpollAction → Option EpollRegistry
  | .register k e => s.register k e
  | .reregister k e => s.reregister k e
  | .deregister k e => s.deregister fd k e
  | .ctl k ok => s.ctl fd k ok
  | .undo k => s.undo k
  | .remove k => s.remove k
  | .wait k ready => s.wait fd k ready
  | .handle k => s.handle k

/-- The calls in progress that count on an event being in `registered_events_`. -/
def held (s : EpollRegistry) (event : ℕ) : ℕ := (s.threads.map fun p => p.holds event).sum

/-- The calls of `deregister` in progress on an event. -/
def removing (s : EpollRegistry) (event : ℕ) : ℕ := (s.threads.map fun p => p.removes event).sum

/-- `Register` and `reregister` are called on an event that is not in `registered_events_` and that
no thread is about to remove from there, and `deregister` on an event that no other call counts on:
`select` has not got it from `epoll_wait` and still to handle. -/
def Disciplined (s : EpollRegistry) : EpollAction → Prop
  | .register _ e | .reregister _ e => e ∉ s.registeredEvents ∧ s.removing e = 0
  | .deregister _ e => s.held e = 0
  | _ => True

instance (s : EpollRegistry) (a : EpollAction) : Decidable (s.Disciplined a) :=
  match a with
  | .register _ _ | .reregister _ _ => inferInstanceAs (Decidable (_ ∧ _))
  | .deregister _ _ => inferInstanceAs (Decidable (_ = _))
  | .ctl _ _ | .undo _ | .remove _ | .wait _ _ | .handle _ => isTrue trivial

end EpollRegistry

end Xyco.Io
