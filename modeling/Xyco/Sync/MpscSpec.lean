import Xyco.Fifo.Bounded
import Xyco.Machine.Table
import Xyco.Sync.Mpsc

/-!
# What the mpsc channel is for

A bounded FIFO queue, and three promises about the futures that wait for it: a `send` does not wait
while there is room, a `receive` is woken once for every time it suspends, and closing one end wakes
whoever waits at the other. With the promises stand the conditions on a run under which the channel
keeps them.
-/

namespace Xyco.Sync.Mpsc

variable {V : Type*}

/-! ## The queue -/

/-- The channel as an abstract queue. -/
def Channel.fifo (c : Channel V) : Fifo.Queue V :=
  ⟨c.shared.queue, c.pushed.map Prod.snd, c.taken.map Prod.snd⟩

/-- What a `send` has pushed, by what it has returned. -/
def SendFuture.pushed (f : SendFuture V) : List V :=
  match f.status with
  | .ready (.ok _) => [f.value]
  | _ => []

/-- What a `receive` has taken. -/
def ReceiveFuture.taken (f : ReceiveFuture V) : List V :=
  match f.status with
  | .popped top => [top]
  | .ready (some top) => [top]
  | _ => []

/-! ## No `send` waits while there is room -/

/-- The poll is under way: the future is between two sections. -/
def SendStatus.polling : SendStatus V → Bool
  | .checked | .full => true
  | _ => false

def ReceiveStatus.polling : ReceiveStatus V → Bool
  | .popped _ => true
  | _ => false

def SendStatus.isPending : SendStatus V → Bool
  | .pending => true
  | _ => false

/-- No poll is in progress. -/
def Channel.quiescent (c : Channel V) : Bool :=
  (c.sends.all fun f => !f.status.polling) && c.receives.all fun f => !f.status.polling

/-- Suspended, registered and not yet polled again. -/
def SendFuture.registered (f : SendFuture V) : Bool := f.status.isPending && 0 < f.wakes

def Channel.registered (c : Channel V) : ℕ := c.sends.countP SendFuture.registered

/-- A `receive` does not look for a sender to wake between the two sections of a `send` that found the
queue full: if it finds none parked, none is about to park. -/
def Channel.WakeSeen (c : Channel V) : Action V → Prop
  | .receiveWake _ => c.shared.senders = [] → ∀ f ∈ c.sends, f.status ≠ .full
  | _ => True

instance [DecidableEq V] (c : Channel V) (a : Action V) : Decidable (c.WakeSeen a) :=
  match a with
  | .receiveWake _ =>
    inferInstanceAs (Decidable (c.shared.senders = [] → ∀ f ∈ c.sends, f.status ≠ .full))
  | .send _ _ | .receive | .sendTest _ | .sendQueue _ | .sendPark _ | .receiveQueue _
  | .copySender _ | .dropSender _ | .dropReceiver => isTrue trivial

/-! ## A `receive` is woken once -/

def ReceiveStatus.isReady : ReceiveStatus V → Bool
  | .ready _ => true
  | _ => false

/-- No `receive` was registered twice since its last poll, and none after it returned `Ready`. -/
def Channel.WokenOnce (c : Channel V) : Prop :=
  ∀ f ∈ c.receives, f.wakes ≤ 1 ∧ (f.status.isReady = true → f.wakes = 0)

/-- A poll of `send` on this channel pushes its value. -/
def Channel.Pushes (size : ℕ) (c : Channel V) : Prop :=
  c.shared.state ≠ .receiverClosed ∧ c.shared.queue.length < size

/-- Once a `receive` has suspended, at most one value is pushed before one suspends again. -/
def Channel.OnePush (size : ℕ) (c : Channel V) : PollAction V → Prop
  | .pollSend _ => c.Pushes size → c.shared.receiver ≠ none → c.pushes = 0
  | _ => True

/-! ## Closing one end wakes the other -/

/-- Suspended, and not registered since. -/
def SendFuture.Waiting (f : SendFuture V) : Prop := f.status.isPending = true ∧ f.wakes = 0

def ReceiveStatus.isPending : ReceiveStatus V → Bool
  | .pending => true
  | _ => false

def ReceiveFuture.Waiting (f : ReceiveFuture V) : Prop := f.status.isPending = true ∧ f.wakes = 0

/-- No `receive` waits for `Sender`s that are all gone, and no `send` for a `Receiver` that is. -/
structure Channel.NoneForgotten (c : Channel V) : Prop where
  receives : c.liveSenders = 0 → ∀ f ∈ c.receives, ¬ f.Waiting
  sends : c.receiverAlive = false → ∀ f ∈ c.sends, ¬ f.Waiting

/-- An end is closed only while no future waits at the other. -/
def Channel.ClosedUnawaited (c : Channel V) : PollAction V → Prop
  | .dropSender _ => c.liveSenders = 1 → ∀ f ∈ c.receives, ¬ f.Waiting
  | .dropReceiver => ∀ f ∈ c.sends, ¬ f.Waiting
  | _ => True

end Xyco.Sync.Mpsc
