import Xyco.Machine.Table
import Xyco.Sync.Mpsc

/-!
# Proofs: what one section of the mpsc channel does

One inversion lemma for every section, with the guards it ran under and the channel it left. The
invariants of the channel are derived from these.
-/

namespace Xyco.Sync.Mpsc

open Machine

variable {V : Type*} {size k j i : ℕ}

/-- `Sender::close` while the `Receiver` holds one of the references. -/
theorem ChannelState.closeSender_succ {state : ChannelState} (h : state ≠ .receiverClosed) (n : ℕ) :
    state.closeSender (n + 1) = if n = 1 then .senderClosed else state := by
  simp [ChannelState.closeSender, h]

namespace Shared

variable {s : Shared V}

theorem pop_cons {top : V} {queue : List V} (h : s.queue = top :: queue) (j : ℕ) :
    s.pop j = ({ s with queue := queue }, .popped top) := by
  simp only [pop, h]

theorem pop_closed (h : s.queue = []) (hs : s.state = .senderClosed) (j : ℕ) :
    s.pop j = (s, .ready none) := by
  simp only [pop, h, if_pos hs]

theorem pop_open (h : s.queue = []) (hs : s.state ≠ .senderClosed) (j : ℕ) :
    s.pop j = ({ s with receiver := some j }, .pending) := by
  simp only [pop, h, if_neg hs]

/-- The three results of the first section of `receive`. -/
theorem pop_cases (s : Shared V) (j : ℕ) :
    (∃ top queue, s.queue = top :: queue ∧ s.pop j = ({ s with queue := queue }, .popped top)) ∨
    (s.queue = [] ∧ s.state = .senderClosed ∧ s.pop j = (s, .ready none)) ∨
    (s.queue = [] ∧ s.state ≠ .senderClosed ∧
      s.pop j = ({ s with receiver := some j }, .pending)) := by
  by_cases hq : s.queue = []
  · by_cases hs : s.state = .senderClosed
    · exact Or.inr (Or.inl ⟨hq, hs, pop_closed hq hs j⟩)
    · exact Or.inr (Or.inr ⟨hq, hs, pop_open hq hs j⟩)
  · obtain ⟨top, queue, hq⟩ := List.exists_cons_of_ne_nil hq
    exact Or.inl ⟨top, queue, hq, pop_cons hq j⟩

theorem unpark_eq (s : Shared V) :
    s.unpark = ({ s with senders := s.senders.tail }, s.senders.head?) := by
  obtain ⟨state, receiver, senders, queue⟩ := s
  cases senders with
  | nil => rfl
  | cons sender senders => rfl

end Shared

namespace Channel

variable {c c' : Channel V}

theorem onSend_eq_some {p : SendStatus V → Bool} {next : SendFuture V → Channel V}
    (h : c.onSend k p next = some c') :
    ∃ f, c.sends[k]? = some f ∧ p f.status ∧ c.senderAlive[f.owner]? = some true ∧ c' = next f := by
  unfold onSend at h
  split at h
  · rename_i f hf
    obtain ⟨hp, rfl⟩ := eq_of_guard h
    exact ⟨f, hf, hp.1, hp.2, rfl⟩
  · cases h

theorem onReceive_eq_some {next : ReceiveFuture V → Option (Channel V)}
    (h : c.onReceive j next = some c') :
    ∃ f, c.receives[j]? = some f ∧ c.receiverAlive = true ∧ next f = some c' := by
  unfold onReceive at h
  split at h
  · rename_i f hf
    split at h
    · rename_i ha
      exact ⟨f, hf, ha, h⟩
    · cases h
  · cases h

/-- A step that starts with a new poll. -/
theorem onReceive_idle {next : ReceiveFuture V → Option (Channel V)}
    (h : (c.onReceive j fun f => if f.status.idle then next f else none) = some c') :
    ∃ f, c.receives[j]? = some f ∧ f.status.idle = true ∧ c.receiverAlive = true ∧
      next f = some c' := by
  obtain ⟨f, hf, ha, hnext⟩ := onReceive_eq_some h
  by_cases hidle : f.status.idle = true
  · rw [if_pos hidle] at hnext
    exact ⟨f, hf, hidle, ha, hnext⟩
  · rw [if_neg hidle] at hnext
    cases hnext

theorem sendTest_cases (h : c.sendTest k = some c') :
    ∃ f, c.sends[k]? = some f ∧ f.status.idle = true ∧ c.senderAlive[f.owner]? = some true ∧
      c' = { c with sends := c.sends.set k { f with
        status := if c.shared.state = .receiverClosed then .ready (.error f.value) else .checked
        wakes := 0 } } :=
  onSend_eq_some h

theorem sendQueue_cases (h : c.sendQueue size k = some c') :
    ∃ f, c.sends[k]? = some f ∧ f.status = .checked ∧ c.senderAlive[f.owner]? = some true ∧
      ((c.shared.queue.length < size ∧ c' = { c with
          shared := { c.shared with queue := c.shared.queue ++ [f.value] }
          sends := c.sends.set k { f with status := .ready (.ok ()) }
          receives := wakeReceive c.shared.receiver c.receives
          pushed := c.pushed ++ [(k, f.value)]
          pushes := c.pushes + 1 }) ∨
        (size ≤ c.shared.queue.length ∧
          c' = { c with sends := c.sends.set k { f with status := .full } })) := by
  obtain ⟨f, hf, hp, ha, rfl⟩ := onSend_eq_some h
  have hchecked : f.status = .checked := by
    revert hp
    cases f.status <;> simp
  refine ⟨f, hf, hchecked, ha, ?_⟩
  by_cases hlt : c.shared.queue.length < size
  · exact Or.inl ⟨hlt, by simp only [Shared.push, if_pos hlt]⟩
  · exact Or.inr ⟨Nat.not_lt.mp hlt, by simp only [Shared.push, if_neg hlt]⟩

theorem sendPark_cases (h : c.sendPark k = some c') :
    ∃ f, c.sends[k]? = some f ∧ f.status = .full ∧ c.senderAlive[f.owner]? = some true ∧
      c' = { c with
        shared := { c.shared with senders := c.shared.senders ++ [k] }
        sends := c.sends.set k { f with status := .pending } } := by
  obtain ⟨f, hf, hp, ha, rfl⟩ := onSend_eq_some h
  have hfull : f.status = .full := by
    revert hp
    cases f.status <;> simp
  exact ⟨f, hf, hfull, ha, rfl⟩

theorem receiveQueue_cases (h : c.receiveQueue j = some c') :
    ∃ f, c.receives[j]? = some f ∧ f.status.idle = true ∧ c.receiverAlive = true ∧
      ((∃ top queue, c.shared.queue = top :: queue ∧ c' = { c with
          shared := { c.shared with queue := queue }
          receives := c.receives.set j ⟨.popped top, 0⟩
          taken := c.taken ++ [(j, top)] }) ∨
        (c.shared.queue = [] ∧ c.shared.state = .senderClosed ∧
          c' = { c with receives := c.receives.set j ⟨.ready none, 0⟩ }) ∨
        (c.shared.queue = [] ∧ c.shared.state ≠ .senderClosed ∧ c' = { c with
          shared := { c.shared with receiver := some j }
          receives := c.receives.set j ⟨.pending, 0⟩
          pushes := 0 })) := by
  obtain ⟨f, hf, hidle, ha, hnext⟩ := onReceive_idle h
  refine ⟨f, hf, hidle, ha, ?_⟩
  rcases c.shared.pop_cases j with ⟨top, queue, hq, hpop⟩ | ⟨hq, hs, hpop⟩ | ⟨hq, hs, hpop⟩
  · rw [hpop] at hnext
    exact Or.inl ⟨top, queue, hq, (Option.some.inj hnext).symm⟩
  · rw [hpop] at hnext
    exact Or.inr (Or.inl ⟨hq, hs, (Option.some.inj hnext).symm⟩)
  · rw [hpop] at hnext
    exact Or.inr (Or.inr ⟨hq, hs, (Option.some.inj hnext).symm⟩)

theorem receiveWake_cases (h : c.receiveWake j = some c') :
    ∃ f top, c.receives[j]? = some f ∧ f.status = .popped top ∧ c.receiverAlive = true ∧
      ((∃ sender senders, c.shared.senders = sender :: senders ∧ c' = { c with
          shared := { c.shared with senders := senders }
          sends := wakeSend (some sender) c.sends
          receives := c.receives.set j { f with status := .ready (some top) } }) ∨
        (c.shared.senders = [] ∧ c' = { c with
          receives := c.receives.set j { f with status := .ready (some top) } })) := by
  obtain ⟨f, hf, ha, hnext⟩ := onReceive_eq_some h
  split at hnext
  · rename_i top hstatus
    refine ⟨f, top, hf, hstatus, ha, ?_⟩
    cases hs : c.shared.senders with
    | cons sender senders =>
      left
      simp only [Shared.unpark, hs] at hnext
      exact ⟨sender, senders, rfl, (Option.some.inj hnext).symm⟩
    | nil =>
      right
      simp only [Shared.unpark, hs] at hnext
      exact ⟨rfl, (Option.some.inj hnext).symm⟩
  · cases hnext

theorem copySender_cases (h : c.copySender i = some c') :
    c.senderAlive[i]? = some true ∧ c' = { c with senderAlive := c.senderAlive ++ [true] } :=
  eq_of_guard h

theorem dropSender_cases (h : c.dropSender i = some c') :
    c.senderAlive[i]? = some true ∧ c' = { c with
      shared := c.shared.closeSender c.useCount
      senderAlive := c.senderAlive.set i false } :=
  eq_of_guard h

theorem dropReceiver_cases (h : c.dropReceiver = some c') :
    c.receiverAlive = true ∧
      c' = { c with shared := c.shared.closeReceiver, receiverAlive := false } :=
  eq_of_guard h

theorem send_cases {owner : ℕ} {value : V} (h : c.send owner value = some c') :
    c.senderAlive[owner]? = some true ∧
      c' = { c with sends := c.sends ++ [⟨owner, value, .created, 0⟩] } :=
  eq_of_guard h

theorem receive_cases (h : c.receive = some c') :
    c.receiverAlive = true ∧ c' = { c with receives := c.receives ++ [⟨.created, 0⟩] } :=
  eq_of_guard h

/-! ## The ends -/

theorem liveSenders_pos (h : c.senderAlive[i]? = some true) : 0 < c.liveSenders :=
  List.count_pos_iff.mpr (List.mem_of_getElem? h)

theorem count_set_false {alive : List Bool} (h : alive[i]? = some true) :
    (alive.set i false).count true + 1 = alive.count true := by
  have := Table.countP_set h (· == true) false
  simpa [List.count] using this

/-- What `state_` says about the ends. -/
structure Ends (c : Channel V) : Prop where
  alive : c.receiverAlive = true →
    c.shared.state ≠ .receiverClosed ∧ (c.shared.state = .senderClosed ↔ c.liveSenders = 0)
  gone : c.receiverAlive = false → c.shared.state = .receiverClosed ∨ c.liveSenders = 0

theorem ends_new : Ends (new : Channel V) := by
  constructor
  · intro _
    refine ⟨by simp [new, Shared.new], ?_⟩
    simp [new, Shared.new, liveSenders]
  · intro h
    cases h

theorem Ends.congr (h : Ends c) (hstate : c'.shared.state = c.shared.state)
    (hsenders : c'.senderAlive = c.senderAlive) (hreceiver : c'.receiverAlive = c.receiverAlive) :
    Ends c' := by
  have hlive : c'.liveSenders = c.liveSenders := congrArg (List.count true) hsenders
  constructor
  · intro ha
    rw [hstate, hlive]
    exact h.alive (hreceiver ▸ ha)
  · intro hg
    rw [hstate, hlive]
    exact h.gone (hreceiver ▸ hg)

theorem Ends.copySender (h : Ends c) (hi : c.senderAlive[i]? = some true) :
    Ends { c with senderAlive := c.senderAlive ++ [true] } := by
  have hpos := liveSenders_pos hi
  have hlive : liveSenders { c with senderAlive := c.senderAlive ++ [true] } = c.liveSenders + 1 := by
    simp [liveSenders]
  constructor
  · intro ha
    obtain ⟨hstate, hiff⟩ := h.alive ha
    refine ⟨hstate, ?_⟩
    rw [hlive]
    show c.shared.state = .senderClosed ↔ _
    rw [hiff]
    omega
  · intro hg
    rcases h.gone hg with hs | h0
    · exact Or.inl hs
    · omega

theorem Ends.dropSender (h : Ends c) (hi : c.senderAlive[i]? = some true) :
    Ends { c with
      shared := c.shared.closeSender c.useCount
      senderAlive := c.senderAlive.set i false } := by
  have hcount : (c.senderAlive.set i false).count true + 1 = c.liveSenders := count_set_false hi
  constructor
  · intro ha
    have ha : c.receiverAlive = true := ha
    obtain ⟨hstate, hiff⟩ := h.alive ha
    have huse : c.useCount = c.liveSenders + 1 := by rw [useCount, if_pos ha]
    show c.shared.state.closeSender c.useCount ≠ _ ∧
      (c.shared.state.closeSender c.useCount = _ ↔ (c.senderAlive.set i false).count true = 0)
    rw [huse, ChannelState.closeSender_succ hstate]
    split
    · rename_i h1
      refine ⟨by simp, ?_⟩
      simp only [true_iff]
      omega
    · rename_i h1
      refine ⟨hstate, ?_⟩
      rw [hiff]
      omega
  · intro hg
    have hg : c.receiverAlive = false := hg
    show c.shared.state.closeSender c.useCount = _ ∨ (c.senderAlive.set i false).count true = 0
    rcases h.gone hg with hs | h0
    · simp only [ChannelState.closeSender, if_pos hs, useCount, hg, Bool.false_eq_true, if_false,
        Nat.add_zero]
      split
      · right
        omega
      · exact Or.inl hs
    · omega

theorem step_ends {a : Action V} (h : Ends c) (hstep : c.step size a = some c') : Ends c' := by
  cases a with
  | send owner value =>
    obtain ⟨-, rfl⟩ := send_cases hstep
    exact h.congr rfl rfl rfl
  | receive =>
    obtain ⟨-, rfl⟩ := receive_cases hstep
    exact h.congr rfl rfl rfl
  | sendTest k =>
    obtain ⟨f, -, -, -, rfl⟩ := sendTest_cases hstep
    exact h.congr rfl rfl rfl
  | sendQueue k =>
    obtain ⟨f, -, -, -, ⟨-, rfl⟩ | ⟨-, rfl⟩⟩ := sendQueue_cases hstep
    · exact h.congr rfl rfl rfl
    · exact h.congr rfl rfl rfl
  | sendPark k =>
    obtain ⟨f, -, -, -, rfl⟩ := sendPark_cases hstep
    exact h.congr rfl rfl rfl
  | receiveQueue j =>
    obtain ⟨f, -, -, -, ⟨top, queue, -, rfl⟩ | ⟨-, -, rfl⟩ | ⟨-, -, rfl⟩⟩ := receiveQueue_cases hstep
    · exact h.congr rfl rfl rfl
    · exact h.congr rfl rfl rfl
    · exact h.congr rfl rfl rfl
  | receiveWake j =>
    obtain ⟨f, top, -, -, -, ⟨sender, senders, -, rfl⟩ | ⟨-, rfl⟩⟩ := receiveWake_cases hstep
    · exact h.congr rfl rfl rfl
    · exact h.congr rfl rfl rfl
  | copySender i =>
    obtain ⟨hi, rfl⟩ := copySender_cases hstep
    exact h.copySender hi
  | dropSender i =>
    obtain ⟨hi, rfl⟩ := dropSender_cases hstep
    exact h.dropSender hi
  | dropReceiver =>
    obtain ⟨-, rfl⟩ := dropReceiver_cases hstep
    constructor
    · intro ha
      cases ha
    · intro _
      exact Or.inl rfl

end Channel

end Xyco.Sync.Mpsc
