import Xyco.Sync.Oneshot

/-!
# What the oneshot channel is for

The value is delivered once, and a `receive` that waits for it is woken. The first is a promise
about whole operations, the second about every order of the accesses; it is kept by the runs that
meet the condition `NotMissed`.
-/

namespace Xyco.Sync.Oneshot

variable {V : Type*}

/-! ## No wake-up is lost -/

/-- The call is under way. -/
def SendStatus.running : SendStatus V → Bool
  | .tested | .stored | .registered => true
  | _ => false

/-- The poll, or the `close` after it, is under way. -/
def ReceiveStatus.running : ReceiveStatus V → Bool
  | .emptySeen | .openSeen | .closing _ => true
  | _ => false

/-- No call and no poll is in progress. -/
def Channel.quiescent (c : Channel V) : Bool :=
  (c.sends.all fun f => !f.status.running) && c.receives.all fun f => !f.status.running

def ReceiveStatus.isPending : ReceiveStatus V → Bool
  | .pending => true
  | _ => false

/-- The future has returned `Pending` and was not registered since. -/
def ReceiveFuture.Waiting (f : ReceiveFuture V) : Prop := f.status.isPending = true ∧ f.wakes = 0

instance (f : ReceiveFuture V) : Decidable f.Waiting :=
  inferInstanceAs (Decidable (f.status.isPending = true ∧ f.wakes = 0))

/-- There is nothing to receive: the next poll would not return `Ready`. -/
def Channel.Empty (c : Channel V) : Prop :=
  c.shared.value.hasValue = false ∧ c.shared.state ≠ .senderClosed

instance (c : Channel V) : Decidable c.Empty :=
  inferInstanceAs (Decidable (c.shared.value.hasValue = false ∧ c.shared.state ≠ .senderClosed))

/-- The `send` has read `receiver_`. -/
def SendStatus.looked : SendStatus V → Bool
  | .registered | .ready (.ok _) => true
  | _ => false

/-- A `receive` stores itself in `receiver_` only if the `Sender` is not closed, no `send` has read
`receiver_` and nobody waits in it; and a `Sender` is destroyed only if nobody waits. -/
def Channel.NotMissed (c : Channel V) : Action V → Prop
  | .receiveStore _ => c.shared.state ≠ .senderClosed ∧
      (∀ f ∈ c.sends, f.status.looked = false) ∧ ∀ f ∈ c.receives, ¬ f.Waiting
  | .dropSender i => c.senders[i]? = some (.live true) → ∀ f ∈ c.receives, ¬ f.Waiting
  | _ => True

instance (c : Channel V) (a : Action V) : Decidable (c.NotMissed a) :=
  match a with
  | .receiveStore _ => inferInstanceAs (Decidable (c.shared.state ≠ .senderClosed ∧
      (∀ f ∈ c.sends, f.status.looked = false) ∧ ∀ f ∈ c.receives, ¬ f.Waiting))
  | .dropSender i => inferInstanceAs (Decidable (c.senders[i]? = some (.live true) →
      ∀ f ∈ c.receives, ¬ f.Waiting))
  | .send _ _ | .sendTest _ | .sendStore _ | .sendRegister _ | .sendClose _ | .receive _
  | .receiveValue _ | .receiveState _ | .receiveClose _ | .moveSender _ | .moveReceiver _
  | .assignSender _ _ | .assignReceiver _ _ | .dropReceiver _ => isTrue trivial

/-! ## The value is delivered once -/

def SendFuture.succeeded (f : SendFuture V) : Bool :=
  match f.status with
  | .ready (.ok _) => true
  | _ => false

/-- The `receive` has returned a value. -/
def ReceiveFuture.received (f : ReceiveFuture V) : Bool :=
  match f.status with
  | .ready (.ok _) => true
  | _ => false

/-- A `send` has succeeded and no `receive` has returned its value. -/
def Channel.Undelivered (c : Channel V) : Prop :=
  (∃ f ∈ c.sends, f.succeeded = true) ∧ ∀ f ∈ c.receives, f.received = false

/-- Exactly once. The `Receiver` that a `receive` was called on may have lost the channel since, to
another `Receiver` or by `close`; such a `receive` returns the error. -/
structure Channel.DeliversOnce (c : Channel V) : Prop where
  sentOnce : c.sends.countP SendFuture.succeeded ≤ 1
  returned : ∀ f ∈ c.sends, ∀ v, f.status = .ready (.error v) → v = f.value
  receivedOnce : c.receives.countP ReceiveFuture.received ≤ 1
  sent : ∀ f ∈ c.receives, ∀ r, f.status = .ready (.ok r) →
    ∃ g ∈ c.sends, g.succeeded = true ∧ r = some g.value
  next : ∀ g ∈ c.sends, g.succeeded = true → ∀ (j : ℕ) (f : ReceiveFuture V),
    c.receives[j]? = some f → f.status.idle = true → c.receivers[f.owner]? = some (.live true) →
    ∃ c', c.pollReceive j = some c' ∧
      c'.receives[j]? = some { f with status := .ready (.ok (some g.value)), wakes := 0 }
  error : ∀ (j : ℕ) (f f' : ReceiveFuture V) (c' : Channel V), c.receives[j]? = some f →
    c.pollReceive j = some c' → c'.receives[j]? = some f' → f'.status = .ready (.error ()) →
    c.receivers[f.owner]? = some (.live false) ∨ ¬ c.Undelivered

end Xyco.Sync.Oneshot
