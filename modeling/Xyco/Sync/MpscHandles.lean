import Xyco.Sync.Mpsc

/-!
# The `Sender` objects of mpsc channels

What the special members of `Sender` do to the references of any number of channels. Copy and move
are defaulted: they copy and move `shared_`, and an assignment releases the reference it overwrites
without a call of `close`. A destruction is two steps, the body of `~Sender`, which is `close`, and
the release of the reference, so that destructions on different threads can interleave. The `Receiver`
of every channel is alive and holds one reference.
-/

namespace Xyco.Sync.Mpsc

/-- A `Sender` object with its `shared_`: the number of a channel, or null after a move. -/
inductive SenderObject where
  | live (shared : Option ℕ)
  /-- `close` has run, the reference is still held -/
  | closing (shared : Option ℕ)
  | destroyed
deriving DecidableEq, Repr

/-- The channel that an object holds a reference to. -/
def SenderObject.shared : SenderObject → Option ℕ
  | .live shared => shared
  | .closing shared => shared
  | .destroyed => none

/-- All channels, as their `state_`, and all `Sender` objects. -/
structure Handles where
  channels : List ChannelState
  senders : List SenderObject
deriving DecidableEq, Repr

/-- The operations on `Sender`s, and `channel()`. -/
inductive HandleOp where
  | channel
  | copyConstruct (source : ℕ)
  | moveConstruct (source : ℕ)
  | copyAssign (target source : ℕ)
  | moveAssign (target source : ℕ)
  | close (sender : ℕ)
  | release (sender : ℕ)
deriving DecidableEq, Repr

namespace Handles

def new : Handles := ⟨[], []⟩

/-- The number of `Sender` objects that hold a reference to a channel. -/
def refs (senders : List SenderObject) (channel : ℕ) : ℕ :=
  senders.countP fun s => s.shared = some channel

/-- The number of those that are not being destroyed. -/
def liveRefs (senders : List SenderObject) (channel : ℕ) : ℕ :=
  senders.countP fun s => s = .live (some channel)

/-- `shared_.use_count()`. -/
def useCount (h : Handles) (channel : ℕ) : ℕ := refs h.senders channel + 1

/-- `Sender::close` on the channel `shared`, if it is not null. -/
def closeChannel (h : Handles) (shared : Option ℕ) : List ChannelState :=
  match shared with
  | some ch => h.channels.modify ch fun state => state.closeSender (h.useCount ch)
  | none => h.channels

/-- An operation on the object `i`, which is alive. -/
def onLive (h : Handles) (i : ℕ) (next : Option ℕ → Option Handles) : Option Handles :=
  match h.senders[i]? with
  | some (.live shared) => next shared
  | _ => none

/-- One operation. The self-move of a `std::shared_ptr` changes nothing. -/
def step (h : Handles) : HandleOp → Option Handles
  | .channel => some ⟨h.channels ++ [.opened], h.senders ++ [.live (some h.channels.length)]⟩
  | .copyConstruct i =>
    h.onLive i fun shared => some { h with senders := h.senders ++ [.live shared] }
  | .moveConstruct i =>
    h.onLive i fun shared =>
      some { h with senders := h.senders.set i (.live none) ++ [.live shared] }
  | .copyAssign i j =>
    h.onLive i fun _ => h.onLive j fun shared =>
      some { h with senders := h.senders.set i (.live shared) }
  | .moveAssign i j =>
    h.onLive i fun _ => h.onLive j fun shared =>
      if i = j then some h
      else some { h with senders := (h.senders.set i (.live shared)).set j (.live none) }
  | .close i =>
    h.onLive i fun shared => some ⟨h.closeChannel shared, h.senders.set i (.closing shared)⟩
  | .release i =>
    match h.senders[i]? with
    | some (.closing _) => some { h with senders := h.senders.set i .destroyed }
    | _ => none

/-- No operation is in progress. -/
def quiescent (h : Handles) : Bool :=
  h.senders.all fun
    | .closing _ => false
    | _ => true

/-- `state_` says `sender_closed` exactly if no `Sender` references the channel. -/
def ClosedExactly (h : Handles) : Prop :=
  ∀ (ch : ℕ) (state : ChannelState), h.channels[ch]? = some state →
    (state = .senderClosed ↔ refs h.senders ch = 0)

/-- The channel that an object references, if it is not being destroyed. -/
def liveChannel (h : Handles) (i : ℕ) : Option ℕ :=
  match h.senders[i]? with
  | some (.live shared) => shared
  | _ => none

/-- An assignment does not overwrite the last reference to a channel, and the last `Sender` of a
channel does not call `close` while the destruction of another is between `close` and the release. -/
def LastCloses (h : Handles) : HandleOp → Prop
  | .copyAssign i j => ∀ ch ∈ h.liveChannel i, h.liveChannel j ≠ some ch → 1 < liveRefs h.senders ch
  | .moveAssign i j => ∀ ch ∈ h.liveChannel i, i ≠ j → 1 < liveRefs h.senders ch
  | .close i => ∀ ch ∈ h.liveChannel i, liveRefs h.senders ch = 1 → refs h.senders ch = 1
  | _ => True

instance (h : Handles) (op : HandleOp) : Decidable (h.LastCloses op) :=
  match op with
  | .copyAssign i j => inferInstanceAs (Decidable (∀ ch ∈ h.liveChannel i, h.liveChannel j ≠ some ch →
      1 < liveRefs h.senders ch))
  | .moveAssign i j =>
    inferInstanceAs (Decidable (∀ ch ∈ h.liveChannel i, i ≠ j → 1 < liveRefs h.senders ch))
  | .close i => inferInstanceAs (Decidable (∀ ch ∈ h.liveChannel i, liveRefs h.senders ch = 1 →
      refs h.senders ch = 1))
  | .channel | .copyConstruct _ | .moveConstruct _ | .release _ => isTrue trivial

end Handles

end Xyco.Sync.Mpsc
