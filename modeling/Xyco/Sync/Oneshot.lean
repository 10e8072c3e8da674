import Xyco.Machine.Run

/-!
# The oneshot channel

`xyco::sync::oneshot`: one value from a `Sender` to a `Receiver`. The two ends share `state_`,
`value_` and `receiver_`, and no lock. `send` stores the value, registers the future it finds in
`receiver_` and closes its end. A poll of `receive` tests `value_` and `state_` and, if it finds
neither, leaves its future in `receiver_`.

There are two machines. One takes the accesses of the shared fields as its steps, in any order; the
other takes a whole `send` and a whole poll as one step.
-/

namespace Xyco.Sync.Oneshot

open Machine

variable {V : Type*}

/-- The values of `state_`. -/
inductive ChannelState where
  | opened
  | senderClosed
  | receiverClosed
deriving DecidableEq, Repr

/-- `value_`. To take the value out is to move from it, which leaves the optional engaged. -/
inductive Cell (V : Type*) where
  | empty
  | full (value : V)
  | movedOut
deriving DecidableEq, Repr

/-- `has_value()`. -/
def Cell.hasValue : Cell V → Bool
  | .empty => false
  | _ => true

/-- `Shared`. A pointer to a future is the future's number. -/
structure Shared (V : Type*) where
  state : ChannelState
  value : Cell V
  receiver : Option ℕ
deriving DecidableEq, Repr

/-- A `Sender` or `Receiver` object. A live one has a null `shared_` after it was moved from and
after `close`. -/
inductive End where
  | live (shared : Bool)
  | destroyed
deriving DecidableEq, Repr

/-- How far a `send` has got. -/
inductive SendStatus (V : Type*) where
  | created
  /-- `shared_` and `state_` were tested -/
  | tested
  /-- `value_` is stored -/
  | stored
  /-- `receiver_` was read, and registered unless it was null -/
  | registered
  | ready (result : Except V Unit)
deriving DecidableEq, Repr

/-- How far a `receive` has got. The result `ok none` would be a value that was moved from. -/
inductive ReceiveStatus (V : Type*) where
  /-- never polled -/
  | created
  /-- in a poll, after `value_` was found empty -/
  | emptySeen
  /-- in a poll, after `state_` was found not to be `sender_closed` -/
  | openSeen
  | pending
  /-- the poll has returned `Ready`, `close` is still to come -/
  | closing (result : Except Unit (Option V))
  | ready (result : Except Unit (Option V))
deriving DecidableEq, Repr

/-- A future that a poll may start on. -/
def ReceiveStatus.idle : ReceiveStatus V → Bool
  | .created | .pending => true
  | _ => false

/-- A call of `Sender::send` on the object `owner`. -/
structure SendFuture (V : Type*) where
  owner : ℕ
  value : V
  status : SendStatus V
deriving DecidableEq, Repr

/-- A call of `Receiver::receive` on the object `owner`, which `self_` points to. `wakes` counts the
calls of `register_future` since its last poll began. -/
structure ReceiveFuture (V : Type*) where
  owner : ℕ
  status : ReceiveStatus V
  wakes : ℕ
deriving DecidableEq, Repr

/-- A channel with all objects and futures made of it. -/
structure Channel (V : Type*) where
  shared : Shared V
  senders : List End
  receivers : List End
  sends : List (SendFuture V)
  receives : List (ReceiveFuture V)
deriving DecidableEq, Repr

/-! ## Moves of an end

Both ends have defaulted move members, which move `shared_`. An assignment overwrites `shared_`
without a call of `close`. -/

/-- The move constructor, from the object `i`. -/
def moveConstruct (ends : List End) (i : ℕ) : Option (List End) :=
  match ends[i]? with
  | some (.live shared) => some (ends.set i (.live false) ++ [.live shared])
  | _ => none

/-- The move assignment to the object `i` from the object `j`. -/
def moveAssign (ends : List End) (i j : ℕ) : Option (List End) :=
  match ends[i]?, ends[j]? with
  | some (.live _), some (.live shared) =>
    if i = j then some ends else some ((ends.set i (.live shared)).set j (.live false))
  | _, _ => none

namespace Channel

/-- `channel()`. -/
def new : Channel V := ⟨⟨.opened, .empty, none⟩, [.live true], [.live true], [], []⟩

/-- `register_future`. -/
def wakeReceive (future : Option ℕ) (receives : List (ReceiveFuture V)) : List (ReceiveFuture V) :=
  match future with
  | some j => receives.modify j fun f => { f with wakes := f.wakes + 1 }
  | none => receives

/-- `Sender::close` on the object `i`. -/
def closeSender (c : Channel V) (i : ℕ) : Channel V :=
  if c.senders[i]? = some (.live true) then
    { c with
      shared := { c.shared with state := .senderClosed }
      senders := c.senders.set i (.live false) }
  else c

/-- `Receiver::close` on the object `i`. -/
def closeReceiver (c : Channel V) (i : ℕ) : Channel V :=
  if c.receivers[i]? = some (.live true) then
    { c with
      shared := { c.shared with state := .receiverClosed }
      receivers := c.receivers.set i (.live false) }
  else c

/-- A step of the `send` future `k`, given the `shared_` of its `Sender`. -/
def onSend (c : Channel V) (k : ℕ) (next : SendFuture V → Bool → Option (Channel V)) :
    Option (Channel V) :=
  match c.sends[k]? with
  | some f =>
    match c.senders[f.owner]? with
    | some (.live shared) => next f shared
    | _ => none
  | none => none

/-- A step of the `receive` future `j`, given the `shared_` of its `Receiver`. -/
def onReceive (c : Channel V) (j : ℕ) (next : ReceiveFuture V → Bool → Option (Channel V)) :
    Option (Channel V) :=
  match c.receives[j]? with
  | some f =>
    match c.receivers[f.owner]? with
    | some (.live shared) => next f shared
    | _ => none
  | none => none

/-! ## The steps of `send` -/

/-- A call of `send`: the coroutine is made, and not started yet. -/
def send (c : Channel V) (owner : ℕ) (value : V) : Option (Channel V) :=
  match c.senders[owner]? with
  | some (.live _) => some { c with sends := c.sends ++ [⟨owner, value, .created⟩] }
  | _ => none

/-- The test of `shared_` and `state_`. -/
def sendTest (c : Channel V) (k : ℕ) : Option (Channel V) :=
  c.onSend k fun f shared =>
    match f.status with
    | .created =>
      let status := if shared = false ∨ c.shared.state = .receiverClosed then
        .ready (.error f.value) else .tested
      some { c with sends := c.sends.set k { f with status := status } }
    | _ => none

/-- The store of `value_`. The access goes through `shared_`, which must not be null. -/
def sendStore (c : Channel V) (k : ℕ) : Option (Channel V) :=
  c.onSend k fun f shared =>
    match f.status, shared with
    | .tested, true =>
      some { c with
        shared := { c.shared with value := .full f.value }
        sends := c.sends.set k { f with status := .stored } }
    | _, _ => none

/-- `receiver_` is read and registered. -/
def sendRegister (c : Channel V) (k : ℕ) : Option (Channel V) :=
  c.onSend k fun f shared =>
    match f.status, shared with
    | .stored, true =>
      some { c with
        sends := c.sends.set k { f with status := .registered }
        receives := wakeReceive c.shared.receiver c.receives }
    | _, _ => none

/-- `close`, and the return. -/
def sendClose (c : Channel V) (k : ℕ) : Option (Channel V) :=
  c.onSend k fun f _ =>
    match f.status with
    | .registered =>
      some { c.closeSender f.owner with
        sends := c.sends.set k { f with status := .ready (.ok ()) } }
    | _ => none

/-! ## The steps of `receive` -/

/-- A call of `receive`. -/
def receive (c : Channel V) (owner : ℕ) : Option (Channel V) :=
  match c.receivers[owner]? with
  | some (.live _) => some { c with receives := c.receives ++ [⟨owner, .created, 0⟩] }
  | _ => none

/-- The tests of `shared_` and `value_`. A value is moved out. -/
def receiveValue (c : Channel V) (j : ℕ) : Option (Channel V) :=
  c.onReceive j fun f shared =>
    if f.status.idle then
      if shared then
        match c.shared.value with
        | .empty => some { c with
            receives := c.receives.set j { f with status := .emptySeen, wakes := 0 } }
        | .full value => some { c with
            shared := { c.shared with value := .movedOut }
            receives := c.receives.set j
              { f with status := .closing (.ok (some value)), wakes := 0 } }
        | .movedOut => some { c with
            receives := c.receives.set j { f with status := .closing (.ok none), wakes := 0 } }
      else some { c with
        receives := c.receives.set j { f with status := .closing (.error ()), wakes := 0 } }
    else none

/-- The test of `state_`. -/
def receiveState (c : Channel V) (j : ℕ) : Option (Channel V) :=
  c.onReceive j fun f shared =>
    match f.status, shared with
    | .emptySeen, true =>
      let status := if c.shared.state = .senderClosed then .closing (.error ()) else .openSeen
      some { c with receives := c.receives.set j { f with status := status } }
    | _, _ => none

/-- The store of `receiver_`; the poll returns `Pending`. -/
def receiveStore (c : Channel V) (j : ℕ) : Option (Channel V) :=
  c.onReceive j fun f shared =>
    match f.status, shared with
    | .openSeen, true =>
      some { c with
        shared := { c.shared with receiver := some j }
        receives := c.receives.set j { f with status := .pending } }
    | _, _ => none

/-- `close`, and the return. -/
def receiveClose (c : Channel V) (j : ℕ) : Option (Channel V) :=
  c.onReceive j fun f _ =>
    match f.status with
    | .closing result =>
      some { c.closeReceiver f.owner with
        receives := c.receives.set j { f with status := .ready result } }
    | _ => none

/-! ## The ends -/

def moveSender (c : Channel V) (i : ℕ) : Option (Channel V) :=
  (moveConstruct c.senders i).map fun senders => { c with senders := senders }

def moveReceiver (c : Channel V) (i : ℕ) : Option (Channel V) :=
  (moveConstruct c.receivers i).map fun receivers => { c with receivers := receivers }

def assignSender (c : Channel V) (i j : ℕ) : Option (Channel V) :=
  (moveAssign c.senders i j).map fun senders => { c with senders := senders }

def assignReceiver (c : Channel V) (i j : ℕ) : Option (Channel V) :=
  (moveAssign c.receivers i j).map fun receivers => { c with receivers := receivers }

/-- `~Sender`. -/
def dropSender (c : Channel V) (i : ℕ) : Option (Channel V) :=
  match c.senders[i]? with
  | some (.live _) => some { c.closeSender i with senders := c.senders.set i .destroyed }
  | _ => none

/-- `~Receiver`. -/
def dropReceiver (c : Channel V) (i : ℕ) : Option (Channel V) :=
  match c.receivers[i]? with
  | some (.live _) => some { c.closeReceiver i with receivers := c.receivers.set i .destroyed }
  | _ => none

end Channel

/-! ## The machines -/

/-- What happens on a channel, by access. -/
inductive Action (V : Type*) where
  | send (owner : ℕ) (value : V)
  | sendTest (future : ℕ)
  | sendStore (future : ℕ)
  | sendRegister (future : ℕ)
  | sendClose (future : ℕ)
  | receive (owner : ℕ)
  | receiveValue (future : ℕ)
  | receiveState (future : ℕ)
  | receiveStore (future : ℕ)
  | receiveClose (future : ℕ)
  | moveSender (source : ℕ)
  | moveReceiver (source : ℕ)
  | assignSender (target source : ℕ)
  | assignReceiver (target source : ℕ)
  | dropSender (sender : ℕ)
  | dropReceiver (receiver : ℕ)
deriving DecidableEq, Repr

namespace Channel

/-- The accesses in any order. -/
def step (c : Channel V) : Action V → Option (Channel V)
  | .send owner value => c.send owner value
  | .sendTest k => c.sendTest k
  | .sendStore k => c.sendStore k
  | .sendRegister k => c.sendRegister k
  | .sendClose k => c.sendClose k
  | .receive owner => c.receive owner
  | .receiveValue j => c.receiveValue j
  | .receiveState j => c.receiveState j
  | .receiveStore j => c.receiveStore j
  | .receiveClose j => c.receiveClose j
  | .moveSender i => c.moveSender i
  | .moveReceiver i => c.moveReceiver i
  | .assignSender i j => c.assignSender i j
  | .assignReceiver i j => c.assignReceiver i j
  | .dropSender i => c.dropSender i
  | .dropReceiver i => c.dropReceiver i

/-- `send` as one step. It does not suspend. -/
def sendWhole (c : Channel V) (owner : ℕ) (value : V) : Option (Channel V) :=
  match c.senders[owner]? with
  | some (.live shared) =>
    if shared = false ∨ c.shared.state = .receiverClosed then
      some { c with sends := c.sends ++ [⟨owner, value, .ready (.error value)⟩] }
    else
      some { c with
        shared := { c.shared with state := .senderClosed, value := .full value }
        senders := c.senders.set owner (.live false)
        sends := c.sends ++ [⟨owner, value, .ready (.ok ())⟩]
        receives := wakeReceive c.shared.receiver c.receives }
  | _ => none

/-- A poll of `receive` as one step, with the `close` that follows a result. -/
def pollReceive (c : Channel V) (j : ℕ) : Option (Channel V) :=
  c.onReceive j fun f shared =>
    let finish (value : Cell V) (result : Except Unit (Option V)) : Channel V :=
      { c with
        shared := { c.shared with state := .receiverClosed, value := value }
        receivers := c.receivers.set f.owner (.live false)
        receives := c.receives.set j { f with status := .ready result, wakes := 0 } }
    if f.status.idle then
      if shared then
        match c.shared.value with
        | .full value => some (finish .movedOut (.ok (some value)))
        | .movedOut => some (finish .movedOut (.ok none))
        | .empty =>
          if c.shared.state = .senderClosed then some (finish .empty (.error ()))
          else some { c with
            shared := { c.shared with receiver := some j }
            receives := c.receives.set j { f with status := .pending, wakes := 0 } }
      else some { c with
        receives := c.receives.set j { f with status := .ready (.error ()), wakes := 0 } }
    else none

end Channel

/-- What happens on a channel, an operation at a time. -/
inductive Op (V : Type*) where
  | send (owner : ℕ) (value : V)
  | receive (owner : ℕ)
  | pollReceive (future : ℕ)
  | moveSender (source : ℕ)
  | moveReceiver (source : ℕ)
  | assignSender (target source : ℕ)
  | assignReceiver (target source : ℕ)
  | dropSender (sender : ℕ)
  | dropReceiver (receiver : ℕ)
deriving DecidableEq, Repr

/-- Whole operations in any order. -/
def Channel.opStep (c : Channel V) : Op V → Option (Channel V)
  | .send owner value => c.sendWhole owner value
  | .receive owner => c.receive owner
  | .pollReceive j => c.pollReceive j
  | .moveSender i => c.moveSender i
  | .moveReceiver i => c.moveReceiver i
  | .assignSender i j => c.assignSender i j
  | .assignReceiver i j => c.assignReceiver i j
  | .dropSender i => c.dropSender i
  | .dropReceiver i => c.dropReceiver i

end Xyco.Sync.Oneshot
