import Xyco.Machine.Run

/-!
# The mpsc channel

`xyco::sync::mpsc`: a queue of at most `Size` values between any number of `Sender`s and one
`Receiver`. A `send` that finds the queue full parks its future in `senders_`, a `receive` that finds
it empty leaves its future in `receiver_`, and the other side hands such a future back to the run
queue with `register_future`.

`Shared` has the data the two ends share, with one function for every section of the code that runs
under a lock. `Channel` has the two ends and the futures as well. Its machine takes these sections as
its steps, in any order; a second machine takes a whole poll as one step.
-/

namespace Xyco.Sync.Mpsc

open Machine

variable {V : Type*}

/-- The values of `state_`. -/
inductive ChannelState where
  | opened
  | senderClosed
  | receiverClosed
deriving DecidableEq, Repr

/-- What `Sender::close` does to `state_` when `shared_.use_count()` is `useCount`. -/
def ChannelState.closeSender (state : ChannelState) (useCount : ℕ) : ChannelState :=
  let ownerNum := if state = .receiverClosed then useCount else useCount - 1
  if ownerNum = 1 then .senderClosed else state

/-- How far a `send` future has got. -/
inductive SendStatus (V : Type*) where
  /-- never polled -/
  | created
  /-- in a poll, after the test of `state_` -/
  | checked
  /-- in a poll, after the queue was found full -/
  | full
  | pending
  | ready (result : Except V Unit)
deriving DecidableEq, Repr

/-- How far a `receive` future has got. -/
inductive ReceiveStatus (V : Type*) where
  /-- never polled -/
  | created
  /-- in a poll, after a value was taken from the queue -/
  | popped (top : V)
  | pending
  | ready (result : Option V)
deriving DecidableEq, Repr

/-- A future that a poll may start on: it was never polled, or its last poll returned `Pending`. -/
def SendStatus.idle : SendStatus V → Bool
  | .created | .pending => true
  | _ => false

def ReceiveStatus.idle : ReceiveStatus V → Bool
  | .created | .pending => true
  | _ => false

/-- The `Future` of `Sender::send`. `owner` is the `Sender` that `self_` points to, and `wakes` counts
the calls of `register_future` since its last poll began. -/
structure SendFuture (V : Type*) where
  owner : ℕ
  value : V
  status : SendStatus V
  wakes : ℕ
deriving DecidableEq, Repr

/-- The `Future` of `Receiver::receive`. -/
structure ReceiveFuture (V : Type*) where
  status : ReceiveStatus V
  wakes : ℕ
deriving DecidableEq, Repr

/-! ## The shared state -/

/-- `Shared`. A pointer to a future is the future's number. -/
structure Shared (V : Type*) where
  state : ChannelState
  receiver : Option ℕ
  senders : List ℕ
  queue : List V
deriving DecidableEq, Repr

namespace Shared

def new : Shared V := ⟨.opened, none, [], []⟩

/-- `Sender::send`, under `queue_mutex_`: the value is pushed unless the queue is full. -/
def push (size : ℕ) (s : Shared V) (value : V) : Option (Shared V) :=
  if s.queue.length < size then some { s with queue := s.queue ++ [value] } else none

/-- `Sender::send`, under `senders_mutex_`. -/
def park (s : Shared V) (future : ℕ) : Shared V := { s with senders := s.senders ++ [future] }

/-- `Receiver::receive`, under `queue_mutex_`. -/
def pop (s : Shared V) (future : ℕ) : Shared V × ReceiveStatus V :=
  match s.queue with
  | top :: queue => ({ s with queue := queue }, .popped top)
  | [] =>
    if s.state = .senderClosed then (s, .ready none)
    else ({ s with receiver := some future }, .pending)

/-- `Receiver::receive`, under `senders_mutex_`: the sender to register. -/
def unpark (s : Shared V) : Shared V × Option ℕ :=
  match s.senders with
  | sender :: senders => ({ s with senders := senders }, some sender)
  | [] => (s, none)

/-- `Sender::close`, on a channel with `useCount` references. -/
def closeSender (s : Shared V) (useCount : ℕ) : Shared V :=
  { s with state := s.state.closeSender useCount }

/-- `Receiver::close`. -/
def closeReceiver (s : Shared V) : Shared V := { s with state := .receiverClosed }

end Shared

/-! ## The two ends and their futures -/

/-- A channel with its ends and all futures made on it. `senderAlive` has an entry for every `Sender`
made so far. `pushed` and `taken` record the values that went into the queue and came out of it, with
the futures that moved them; `pushes` counts the values pushed since a `receive` last suspended. -/
structure Channel (V : Type*) where
  shared : Shared V
  senderAlive : List Bool
  receiverAlive : Bool
  sends : List (SendFuture V)
  receives : List (ReceiveFuture V)
  pushed : List (ℕ × V)
  taken : List (ℕ × V)
  pushes : ℕ
deriving DecidableEq, Repr

namespace Channel

/-- `channel()`: one `Sender` and one `Receiver`. -/
def new : Channel V := ⟨.new, [true], true, [], [], [], [], 0⟩

def liveSenders (c : Channel V) : ℕ := c.senderAlive.count true

/-- `shared_.use_count()`. -/
def useCount (c : Channel V) : ℕ := c.liveSenders + if c.receiverAlive then 1 else 0

/-- `register_future` on a `send` future. -/
def wakeSend (future : Option ℕ) (sends : List (SendFuture V)) : List (SendFuture V) :=
  match future with
  | some k => sends.modify k fun f => { f with wakes := f.wakes + 1 }
  | none => sends

/-- `register_future` on a `receive` future. -/
def wakeReceive (future : Option ℕ) (receives : List (ReceiveFuture V)) : List (ReceiveFuture V) :=
  match future with
  | some j => receives.modify j fun f => { f with wakes := f.wakes + 1 }
  | none => receives

/-- A step of the `send` future `k`, whose code reaches the channel through its `Sender`. -/
def onSend (c : Channel V) (k : ℕ) (at? : SendStatus V → Bool) (next : SendFuture V → Channel V) :
    Option (Channel V) :=
  match c.sends[k]? with
  | some f => if at? f.status ∧ c.senderAlive[f.owner]? = some true then some (next f) else none
  | none => none

/-- A step of the `receive` future `j`, whose code reaches the channel through the `Receiver`. -/
def onReceive (c : Channel V) (j : ℕ) (next : ReceiveFuture V → Option (Channel V)) :
    Option (Channel V) :=
  match c.receives[j]? with
  | some f => if c.receiverAlive then next f else none
  | none => none

/-! ### The sections of a poll of `send` -/

/-- The test of `state_`. -/
def sendTest (c : Channel V) (k : ℕ) : Option (Channel V) :=
  c.onSend k SendStatus.idle fun f =>
    let status := if c.shared.state = .receiverClosed then .ready (.error f.value) else .checked
    { c with sends := c.sends.set k { f with status := status, wakes := 0 } }

/-- The section under `queue_mutex_`. -/
def sendQueue (size : ℕ) (c : Channel V) (k : ℕ) : Option (Channel V) :=
  c.onSend k (fun | .checked => true | _ => false) fun f =>
    match c.shared.push size f.value with
    | some shared =>
      { c with
        shared := shared
        sends := c.sends.set k { f with status := .ready (.ok ()) }
        receives := wakeReceive c.shared.receiver c.receives
        pushed := c.pushed ++ [(k, f.value)]
        pushes := c.pushes + 1 }
    | none => { c with sends := c.sends.set k { f with status := .full } }

/-- The section under `senders_mutex_`. -/
def sendPark (c : Channel V) (k : ℕ) : Option (Channel V) :=
  c.onSend k (fun | .full => true | _ => false) fun f =>
    { c with shared := c.shared.park k, sends := c.sends.set k { f with status := .pending } }

/-! ### The sections of a poll of `receive` -/

/-- The section under `queue_mutex_`. -/
def receiveQueue (c : Channel V) (j : ℕ) : Option (Channel V) :=
  c.onReceive j fun f =>
    if f.status.idle then
      let (shared, status) := c.shared.pop j
      some { c with
        shared := shared
        receives := c.receives.set j { status := status, wakes := 0 }
        taken := match status with
          | .popped top => c.taken ++ [(j, top)]
          | _ => c.taken
        pushes := match status with
          | .pending => 0
          | _ => c.pushes }
    else none

/-- The section under `senders_mutex_`. -/
def receiveWake (c : Channel V) (j : ℕ) : Option (Channel V) :=
  c.onReceive j fun f =>
    match f.status with
    | .popped top =>
      let (shared, sender) := c.shared.unpark
      some { c with
        shared := shared
        sends := wakeSend sender c.sends
        receives := c.receives.set j { f with status := .ready (some top) } }
    | _ => none

/-! ### The ends -/

/-- `Sender(const Sender &)`. -/
def copySender (c : Channel V) (i : ℕ) : Option (Channel V) :=
  if c.senderAlive[i]? = some true then some { c with senderAlive := c.senderAlive ++ [true] }
  else none

/-- `~Sender`, with the release of its reference. -/
def dropSender (c : Channel V) (i : ℕ) : Option (Channel V) :=
  if c.senderAlive[i]? = some true then
    some { c with
      shared := c.shared.closeSender c.useCount
      senderAlive := c.senderAlive.set i false }
  else none

/-- `~Receiver`, with the release of its reference. -/
def dropReceiver (c : Channel V) : Option (Channel V) :=
  if c.receiverAlive then
    some { c with shared := c.shared.closeReceiver, receiverAlive := false }
  else none

/-- A call of `send`: the future is made, and not polled yet. -/
def send (c : Channel V) (owner : ℕ) (value : V) : Option (Channel V) :=
  if c.senderAlive[owner]? = some true then
    some { c with sends := c.sends ++ [⟨owner, value, .created, 0⟩] }
  else none

/-- A call of `receive`. -/
def receive (c : Channel V) : Option (Channel V) :=
  if c.receiverAlive then some { c with receives := c.receives ++ [⟨.created, 0⟩] } else none

end Channel

/-! ## The machines -/

/-- What happens on a channel, by section. -/
inductive Action (V : Type*) where
  | send (owner : ℕ) (value : V)
  | receive
  | sendTest (future : ℕ)
  | sendQueue (future : ℕ)
  | sendPark (future : ℕ)
  | receiveQueue (future : ℕ)
  | receiveWake (future : ℕ)
  | copySender (sender : ℕ)
  | dropSender (sender : ℕ)
  | dropReceiver
deriving DecidableEq, Repr

namespace Channel

/-- The sections in any order, on a channel for `size` values. -/
def step (size : ℕ) (c : Channel V) : Action V → Option (Channel V)
  | .send owner value => c.send owner value
  | .receive => c.receive
  | .sendTest k => c.sendTest k
  | .sendQueue k => c.sendQueue size k
  | .sendPark k => c.sendPark k
  | .receiveQueue j => c.receiveQueue j
  | .receiveWake j => c.receiveWake j
  | .copySender i => c.copySender i
  | .dropSender i => c.dropSender i
  | .dropReceiver => c.dropReceiver

/-- The runtime polls a `send` that has returned `Pending` only after it was registered. -/
def scheduled (c : Channel V) : Action V → Bool
  | .sendTest k =>
    match c.sends[k]? with
    | some ⟨_, _, .pending, wakes⟩ => 0 < wakes
    | _ => true
  | _ => true

/-- The sections in any order that the run queue allows. -/
def scheduledStep (size : ℕ) (c : Channel V) (a : Action V) : Option (Channel V) :=
  if c.scheduled a then c.step size a else none

/-- `poll` of `Sender::send` as one step. -/
def pollSend (size : ℕ) (c : Channel V) (k : ℕ) : Option (Channel V) :=
  c.onSend k SendStatus.idle fun f =>
    if c.shared.state = .receiverClosed then
      { c with sends := c.sends.set k { f with status := .ready (.error f.value), wakes := 0 } }
    else
      match c.shared.push size f.value with
      | some shared =>
        { c with
          shared := shared
          sends := c.sends.set k { f with status := .ready (.ok ()), wakes := 0 }
          receives := wakeReceive c.shared.receiver c.receives
          pushed := c.pushed ++ [(k, f.value)]
          pushes := c.pushes + 1 }
      | none =>
        { c with
          shared := c.shared.park k
          sends := c.sends.set k { f with status := .pending, wakes := 0 } }

/-- `poll` of `Receiver::receive` as one step. -/
def pollReceive (c : Channel V) (j : ℕ) : Option (Channel V) :=
  c.onReceive j fun f =>
    if f.status.idle then
      match c.shared.pop j with
      | (shared, .popped top) =>
        let (shared, sender) := shared.unpark
        some { c with
          shared := shared
          sends := wakeSend sender c.sends
          receives := c.receives.set j { status := .ready (some top), wakes := 0 }
          taken := c.taken ++ [(j, top)] }
      | (shared, .pending) =>
        some { c with
          shared := shared
          receives := c.receives.set j { status := .pending, wakes := 0 }
          pushes := 0 }
      | (shared, status) =>
        some { c with
          shared := shared
          receives := c.receives.set j { status := status, wakes := 0 } }
    else none

end Channel

/-- What happens on a channel, a poll at a time. -/
inductive PollAction (V : Type*) where
  | send (owner : ℕ) (value : V)
  | receive
  | pollSend (future : ℕ)
  | pollReceive (future : ℕ)
  | copySender (sender : ℕ)
  | dropSender (sender : ℕ)
  | dropReceiver
deriving DecidableEq, Repr

/-- Whole polls in any order. -/
def Channel.pollStep (size : ℕ) (c : Channel V) : PollAction V → Option (Channel V)
  | .send owner value => c.send owner value
  | .receive => c.receive
  | .pollSend k => c.pollSend size k
  | .pollReceive j => c.pollReceive j
  | .copySender i => c.copySender i
  | .dropSender i => c.dropSender i
  | .dropReceiver => c.dropReceiver

end Xyco.Sync.Mpsc
