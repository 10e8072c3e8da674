import Mathlib.Logic.Function.Basic
import Xyco.Machine.Ring
import Xyco.Machine.Run
import Xyco.Machine.Table

/-!
# The io_uring registry

One thread calls `Register`, `deregister` and `select` of its registry, and the kernel completes the
requests that it was given, in any order. Events are numbers; the pointer to an event is the
`user_data` of its requests. `io_uring_get_sqe` reserves a slot of the submission ring without
clearing it, and `io_uring_submit` gives all reserved slots to the kernel.
-/

namespace Xyco.Io

/-- `io::Shutdown`. -/
inductive Shutdown where
  | read
  | write
  | all
deriving DecidableEq, Repr

/-- `IoExtra::args_`. -/
inductive UringArgs where
  | read (buf len offset : ℕ)
  | write (buf len offset : ℕ)
  | close
  | accept (addr addrlen : ℕ)
  | connect (addr addrlen : ℕ)
  | shutdown (how : Shutdown)
deriving DecidableEq, Repr

/-- `IoExtra` of the io_uring backend. `registered` and `completed` are the flags of `state_`. -/
structure UringExtra where
  args : UringArgs
  fd : ℤ
  ret : ℤ
  registered : Bool
  completed : Bool
deriving DecidableEq, Repr

/-- What `io_uring_prep_*` writes; `nop` is the operation of a slot that was never written. -/
inductive SqeOp where
  | nop
  | io (args : UringArgs) (fd : ℤ)
  | cancel (event : ℕ)
deriving DecidableEq, Repr

/-- A submission entry. -/
structure Sqe where
  op : SqeOp
  userData : Option ℕ
deriving DecidableEq, Repr

/-- A completion entry. -/
structure Cqe where
  userData : Option ℕ
  res : ℤ
deriving DecidableEq, Repr

/-- `IoRegistryImpl` and the kernel. `inFlight` are the requests that the kernel has and has not
completed, `completions` the completions that `select` has not consumed. `selected` are the events
that `select` has pushed to its argument, and `failedLookup` says that an iterator was used that is
`end()`. -/
structure UringRegistry where
  ring : Ring Sqe
  inFlight : List Sqe
  completions : List Cqe
  extra : ℕ → UringExtra
  registeredEvents : List ℕ
  selected : List ℕ
  failedLookup : Bool

inductive UringAction where
  | register (event : ℕ)
  | deregister (event : ℕ)
  | select
  /-- the kernel completes the request number `k` of `inFlight` -/
  | complete (k : ℕ) (res : ℤ)
  /-- a future writes `args_` and `fd_` of its event -/
  | setArgs (event : ℕ) (args : UringArgs) (fd : ℤ)
  /-- a future takes the result of its event -/
  | take (event : ℕ)
deriving DecidableEq, Repr

namespace UringRegistry

def init (slots : List Sqe) : UringRegistry where
  ring := Ring.new slots
  inFlight := []
  completions := []
  extra _ := ⟨.read 0 0 0, 0, 0, false, false⟩
  registeredEvents := []
  selected := []
  failedLookup := false

/-- `io_uring_get_sqe`. -/
def getSqe (s : UringRegistry) : Option (ℕ × UringRegistry) :=
  s.ring.reserve.map fun p => (p.1, { s with ring := p.2 })

/-- `io_uring_prep_*` on the entry `i` of the ring, which clears `user_data`, and
`io_uring_sqe_set_data` where it follows. -/
def prep (s : UringRegistry) (i : ℕ) (sqe : Sqe) : UringRegistry :=
  { s with ring := s.ring.write i sqe }

/-- `io_uring_submit`. -/
def submit (s : UringRegistry) : UringRegistry :=
  { s with inFlight := s.inFlight ++ s.ring.pending, ring := s.ring.handOver }

def setExtra (s : UringRegistry) (event : ℕ) (x : UringExtra) : UringRegistry :=
  { s with extra := Function.update s.extra event x }

/-- The event goes into `registered_events_`, unless its flag is set. -/
def enlist (s : UringRegistry) (event : ℕ) : UringRegistry :=
  if (s.extra event).registered then s
  else
    { s with registeredEvents := s.registeredEvents ++ [event] }.setExtra event
      { s.extra event with registered := true }

/-- What `Register` writes to its entry of the ring. -/
def request (s : UringRegistry) (event : ℕ) : Sqe :=
  ⟨.io (s.extra event).args (s.extra event).fd, some event⟩

/-- `Register` from where it has an entry of the ring. -/
def registerWith (s : UringRegistry) (i event : ℕ) : UringRegistry :=
  ((s.enlist event).prep i (s.request event)).submit

/-- `Register`. The first component says whether it succeeds. -/
def register (s : UringRegistry) (event : ℕ) : Bool × UringRegistry :=
  match s.getSqe with
  | some (i, t) => (true, t.registerWith i event)
  | none =>
    match s.submit.getSqe with
    | some (i, t) => (true, t.registerWith i event)
    | none => (false, s.submit)

/-- `erase` of what `find` has found. -/
def erase (s : UringRegistry) (event : ℕ) : UringRegistry :=
  if event ∈ s.registeredEvents then { s with registeredEvents := s.registeredEvents.erase event }
  else { s with failedLookup := true }

/-- What `deregister` writes to its entry of the ring. -/
def cancelRequest (event : ℕ) : Sqe := ⟨.cancel event, none⟩

/-- `deregister` from where it has an entry of the ring. -/
def deregisterWith (s : UringRegistry) (i event : ℕ) : UringRegistry :=
  let t := (s.prep i (cancelRequest event)).submit.erase event
  t.setExtra event { t.extra event with registered := false }

/-- The first `io_uring_get_sqe` of `deregister`. The entry that it has reserved is not used. -/
def discardSqe (s : UringRegistry) : UringRegistry :=
  match s.getSqe with
  | some (_, t) => t
  | none => s.submit

/-- `deregister`. -/
def deregister (s : UringRegistry) (event : ℕ) : Bool × UringRegistry :=
  match s.discardSqe.getSqe with
  | some (i, t) => (true, t.deregisterWith i event)
  | none => (false, s.discardSqe)

/-- The body of the loop of `select`. -/
def handle (s : UringRegistry) (cqe : Cqe) : UringRegistry :=
  match cqe.userData with
  | none => s
  | some event =>
    if event ∈ s.registeredEvents then
      { s with
        selected := s.selected ++ [event]
        registeredEvents := s.registeredEvents.erase event }.setExtra event
        { s.extra event with ret := cqe.res, completed := true, registered := false }
    else { s with failedLookup := true }.setExtra event { s.extra event with ret := cqe.res }

/-- `IoRegistryImpl::select`: `io_uring_for_each_cqe` and then `io_uring_cq_advance`. -/
def select (s : UringRegistry) : UringRegistry :=
  s.completions.foldl handle { s with completions := [] }

/-- The kernel completes a request and posts its `user_data` with the result. -/
def complete (s : UringRegistry) (k : ℕ) (res : ℤ) : Option UringRegistry :=
  match s.inFlight[k]? with
  | none => none
  | some sqe =>
    some { s with
      inFlight := s.inFlight.eraseIdx k
      completions := s.completions ++ [⟨sqe.userData, res⟩] }

/-- The calls of `IoRegistryImpl`, the kernel, and what the `poll` of a future does to its
`IoExtra`. -/
def step (s : UringRegistry) : UringAction → Option UringRegistry
  | .register event => some (s.register event).2
  | .deregister event => some (s.deregister event).2
  | .select => some s.select
  | .complete k res => s.complete k res
  | .setArgs event args fd =>
    some (s.setExtra event { s.extra event with args := args, fd := fd })
  | .take event => some (s.setExtra event { s.extra event with completed := false })

/-- How many requests of an event were submitted and are not consumed by `select`. -/
def outstanding (s : UringRegistry) (event : ℕ) : ℕ :=
  (s.inFlight.map Sqe.userData).count (some event) +
    (s.completions.map Cqe.userData).count (some event)

/-- `registered_events_` has each event as often as it has requests, and `find_if` has always
succeeded. -/
def Matched (s : UringRegistry) : Prop :=
  s.failedLookup = false ∧ ∀ event, s.outstanding event = s.registeredEvents.count event

/-- What the kernel has, and what it gets with the next `io_uring_submit`. -/
def handed (s : UringRegistry) : List Sqe := s.inFlight ++ s.ring.pending

/-- A call that succeeds gives `sqe` to the kernel, after what was reserved before the call. A call
that fails reserves no entry. -/
def Issues (s : UringRegistry) (sqe : Sqe) (result : Bool × UringRegistry) : Prop :=
  if result.1 then result.2.inFlight = s.handed ++ [sqe] ∧ result.2.ring.used = 0
  else result.2.handed = s.handed

/-- An event is registered only when it has no request, and `deregister` is not called. -/
def Alone (s : UringRegistry) : UringAction → Prop
  | .register event => (s.extra event).registered = false
  | .deregister _ => False
  | _ => True

instance (s : UringRegistry) (a : UringAction) : Decidable (s.Alone a) := by
  cases a <;> unfold Alone <;> infer_instance

end UringRegistry

end Xyco.Io
