import Xyco.Sync.OneshotSpec
import Xyco.Sync.Proofs.OneshotStepProofs

/-!
# Proofs: the oneshot channel delivers once

At most one `Sender` and at most one `Receiver` object holds the channel. A `send` that succeeds and
a `receive` that returns a value take it away from theirs, so the channel goes through three phases:
nothing sent, the value in `value_`, the value moved out.
-/

namespace Xyco.Sync.Oneshot

open Machine Table

variable {V : Type*} {c c' : Channel V} {i j : ℕ}

/-! ## Who holds the channel -/

/-- The number of objects with a `shared_` that is not null. -/
def holders (ends : List End) : ℕ := ends.countP fun e => e = .live true

variable {ends ends' : List End}

theorem holders_set (h : ends[i]? = some (.live true)) {e : End} (he : e ≠ .live true) :
    holders (ends.set i e) + 1 = holders ends := by
  have := countP_set h (fun e => decide (e = .live true)) e
  simpa [holders, he] using this

theorem holders_set_le {e : End} (he : e ≠ .live true) (h : ∃ e', ends[i]? = some e') :
    holders (ends.set i e) ≤ holders ends := by
  obtain ⟨e', hi⟩ := h
  have := countP_set hi (fun e => decide (e = .live true)) e
  simp only [he, decide_false, Bool.false_eq_true, if_false, Nat.add_zero] at this
  exact Nat.le.intro this

theorem holders_pos (h : ends[i]? = some (.live true)) : 0 < holders ends :=
  List.countP_pos_iff.mpr ⟨_, List.mem_of_getElem? h, by simp⟩

theorem holders_moveConstruct (h : moveConstruct ends i = some ends') :
    holders ends' = holders ends := by
  obtain ⟨shared, hi, rfl⟩ := moveConstruct_cases h
  cases shared with
  | true =>
    have := holders_set hi (e := .live false) (by simp)
    simpa [holders, List.countP_append] using this
  | false =>
    have := countP_set hi (fun e => decide (e = .live true)) (.live false)
    simpa [holders, List.countP_append] using this

/-- An assignment moves the channel, or releases it. -/
theorem holders_moveAssign (h : moveAssign ends i j = some ends') : holders ends' ≤ holders ends := by
  obtain ⟨old, shared, hi, hj, ⟨-, rfl⟩ | ⟨hij, rfl⟩⟩ := moveAssign_cases h
  · exact Nat.le_refl _
  · have hj' : (ends.set i (.live shared))[j]? = some (.live shared) := by
      rw [get_set hi, if_neg (Ne.symm hij)]
      exact hj
    have h1 := countP_set hi (fun e => decide (e = .live true)) (.live shared)
    have h2 := countP_set hj' (fun e => decide (e = .live true)) (.live false)
    have hfalse : (End.live false = End.live true) = False := by simp
    simp only [hfalse, decide_false, Bool.false_eq_true, if_false, Nat.add_zero] at h2
    show List.countP _ _ ≤ List.countP _ _
    omega

/-! ## One operation -/

namespace Channel

theorem sendWhole_cases {owner : ℕ} {value : V} (h : c.sendWhole owner value = some c') :
    ∃ shared, c.senders[owner]? = some (.live shared) ∧
      (((shared = false ∨ c.shared.state = .receiverClosed) ∧ c' = { c with
          sends := c.sends ++ [⟨owner, value, .ready (.error value)⟩] }) ∨
        (shared = true ∧ c.shared.state ≠ .receiverClosed ∧ c' = { c with
          shared := { c.shared with state := .senderClosed, value := .full value }
          senders := c.senders.set owner (.live false)
          sends := c.sends ++ [⟨owner, value, .ready (.ok ())⟩]
          receives := wakeReceive c.shared.receiver c.receives })) := by
  unfold sendWhole at h
  split at h
  · rename_i shared hs
    refine ⟨shared, hs, ?_⟩
    rcases eq_of_branch h with hfail | ⟨hopen, rfl⟩
    · exact Or.inl hfail
    · rw [not_or, Bool.not_eq_false] at hopen
      exact Or.inr ⟨hopen.1, hopen.2, rfl⟩
  · cases h

/-- The channel after a poll that returned a result to a `receive` that held the channel. -/
def received (c : Channel V) (j : ℕ) (f : ReceiveFuture V) (value : Cell V)
    (result : Except Unit (Option V)) : Channel V :=
  { c with
    shared := { c.shared with state := .receiverClosed, value := value }
    receivers := c.receivers.set f.owner (.live false)
    receives := c.receives.set j { f with status := .ready result, wakes := 0 } }

theorem pollReceive_cases (h : c.pollReceive j = some c') :
    ∃ f shared, c.receives[j]? = some f ∧ c.receivers[f.owner]? = some (.live shared) ∧
      f.status.idle = true ∧
      ((shared = false ∧ c' = { c with
          receives := c.receives.set j { f with status := .ready (.error ()), wakes := 0 } }) ∨
        (∃ value, shared = true ∧ c.shared.value = .full value ∧
          c' = c.received j f .movedOut (.ok (some value))) ∨
        (shared = true ∧ c.shared.value = .movedOut ∧
          c' = c.received j f .movedOut (.ok none)) ∨
        (shared = true ∧ c.shared.value = .empty ∧ c.shared.state = .senderClosed ∧
          c' = c.received j f .empty (.error ())) ∨
        (shared = true ∧ c.shared.value = .empty ∧ c.shared.state ≠ .senderClosed ∧ c' = { c with
          shared := { c.shared with receiver := some j }
          receives := c.receives.set j { f with status := .pending, wakes := 0 } })) := by
  obtain ⟨f, shared, hf, hs, hnext⟩ := onReceive_eq_some h
  by_cases hidle : f.status.idle = true
  · simp only [if_pos hidle] at hnext
    refine ⟨f, shared, hf, hs, hidle, ?_⟩
    cases shared with
    | false => exact Or.inl ⟨rfl, (Option.some.inj hnext).symm⟩
    | true =>
      right
      rw [if_pos rfl] at hnext
      split at hnext
      · rename_i value hv
        exact Or.inl ⟨value, rfl, hv, (Option.some.inj hnext).symm⟩
      · rename_i hv
        exact Or.inr (Or.inl ⟨rfl, hv, (Option.some.inj hnext).symm⟩)
      · rename_i hv
        right
        right
        by_cases hclosed : c.shared.state = .senderClosed
        · rw [if_pos hclosed] at hnext
          exact Or.inl ⟨rfl, hv, hclosed, (Option.some.inj hnext).symm⟩
        · rw [if_neg hclosed] at hnext
          exact Or.inr ⟨rfl, hv, hclosed, (Option.some.inj hnext).symm⟩
  · simp only [if_neg hidle] at hnext
    cases hnext

/-! ## An operation is a run of its accesses -/

theorem sendWhole_reachable {owner : ℕ} {value : V} (h : c.sendWhole owner value = some c') :
    Reachable step c c' := by
  obtain ⟨shared, hs, ⟨hfail, rfl⟩ | ⟨rfl, hopen, rfl⟩⟩ := sendWhole_cases h
  · refine ⟨[.send owner value, .sendTest c.sends.length], ?_⟩
    simp [step, send, sendTest, onSend, hs, hfail]
  · refine ⟨[.send owner value, .sendTest c.sends.length, .sendStore c.sends.length,
      .sendRegister c.sends.length, .sendClose c.sends.length], ?_⟩
    simp [step, send, sendTest, sendStore, sendRegister, sendClose, closeSender, onSend, hs, hopen]

theorem pollReceive_reachable (h : c.pollReceive j = some c') : Reachable step c c' := by
  obtain ⟨f, shared, hf, hs, hidle, hcases⟩ := pollReceive_cases h
  rcases hcases with ⟨rfl, rfl⟩ | ⟨value, rfl, hv, rfl⟩ | ⟨rfl, hv, rfl⟩ | ⟨rfl, hv, hst, rfl⟩ |
    ⟨rfl, hv, hst, rfl⟩
  · refine ⟨[.receiveValue j, .receiveClose j], ?_⟩
    simp [step, receiveValue, receiveClose, closeReceiver, onReceive, hf, hs, hidle, get_set hf]
  · refine ⟨[.receiveValue j, .receiveClose j], ?_⟩
    simp [step, receiveValue, receiveClose, closeReceiver, onReceive, hf, hs, hidle, get_set hf, hv,
      received]
  · refine ⟨[.receiveValue j, .receiveClose j], ?_⟩
    simp [step, receiveValue, receiveClose, closeReceiver, onReceive, hf, hs, hidle, get_set hf, hv,
      received]
  · refine ⟨[.receiveValue j, .receiveState j, .receiveClose j], ?_⟩
    simp [step, receiveValue, receiveState, receiveClose, closeReceiver, onReceive, hf, hs, hidle,
      get_set hf, hv, hst, received]
  · refine ⟨[.receiveValue j, .receiveState j, .receiveStore j], ?_⟩
    simp [step, receiveValue, receiveState, receiveStore, onReceive, hf, hs, hidle, get_set hf, hv,
      hst]

/-- A whole operation is a run of its accesses. -/
theorem opStep_reachable {op : Op V} (h : c.opStep op = some c') : Reachable step c c' := by
  cases op with
  | send owner value => exact sendWhole_reachable h
  | receive owner => exact (Reachable.refl c).tail (a := Action.receive owner) h
  | pollReceive j => exact pollReceive_reachable h
  | moveSender i => exact (Reachable.refl c).tail (a := Action.moveSender i) h
  | moveReceiver i => exact (Reachable.refl c).tail (a := Action.moveReceiver i) h
  | assignSender i j => exact (Reachable.refl c).tail (a := Action.assignSender i j) h
  | assignReceiver i j => exact (Reachable.refl c).tail (a := Action.assignReceiver i j) h
  | dropSender i => exact (Reachable.refl c).tail (a := Action.dropSender i) h
  | dropReceiver i => exact (Reachable.refl c).tail (a := Action.dropReceiver i) h

/-! ## The phases -/

inductive Phase (c : Channel V) : Prop where
  | unsent (value : c.shared.value = .empty)
      (sent : c.sends.countP SendFuture.succeeded = 0)
      (received : c.receives.countP ReceiveFuture.received = 0)
  | sent (v : V) (value : c.shared.value = .full v)
      (sent : c.sends.countP SendFuture.succeeded = 1)
      (carried : ∀ g ∈ c.sends, g.succeeded = true → g.value = v)
      (sender : holders c.senders = 0)
      (received : c.receives.countP ReceiveFuture.received = 0)
  | delivered (v : V) (value : c.shared.value = .movedOut)
      (sent : c.sends.countP SendFuture.succeeded = 1)
      (carried : ∀ g ∈ c.sends, g.succeeded = true → g.value = v)
      (sender : holders c.senders = 0)
      (received : c.receives.countP ReceiveFuture.received = 1)
      (result : ∀ f ∈ c.receives, ∀ r, f.status = .ready (.ok r) → r = some v)
      (receiver : holders c.receivers = 0)

structure Once (c : Channel V) : Prop where
  senders : holders c.senders ≤ 1
  receivers : holders c.receivers ≤ 1
  returned : ∀ f ∈ c.sends, ∀ v, f.status = .ready (.error v) → v = f.value
  phase : Phase c

theorem once_new : Once (new : Channel V) := by
  refine ⟨Nat.le_refl 1, Nat.le_refl 1, ?_, Phase.unsent rfl rfl rfl⟩
  intro f hf
  cases hf

/-- An operation that stays in its phase: no `send` succeeds and no `receive` gets a value. -/
theorem Phase.congr (h : Phase c) (hvalue : c'.shared.value = c.shared.value)
    (hsent : c'.sends.countP SendFuture.succeeded = c.sends.countP SendFuture.succeeded)
    (hsends : ∀ g ∈ c'.sends, g.succeeded = true → g ∈ c.sends)
    (hsenders : holders c'.senders ≤ holders c.senders)
    (hreceivers : holders c'.receivers ≤ holders c.receivers)
    (hreceived : c'.receives.countP ReceiveFuture.received =
      c.receives.countP ReceiveFuture.received)
    (hreceives : ∀ f ∈ c'.receives, f.received = true → f ∈ c.receives) : Phase c' := by
  cases h with
  | unsent value sent received =>
    exact .unsent (hvalue.trans value) (hsent.trans sent) (hreceived.trans received)
  | sent v value sent carried sender received =>
    refine .sent v (hvalue.trans value) (hsent.trans sent) ?_ (by omega)
      (hreceived.trans received)
    intro g hg hs
    exact carried g (hsends g hg hs) hs
  | delivered v value sent carried sender received result receiver =>
    refine .delivered v (hvalue.trans value) (hsent.trans sent) ?_ (by omega)
      (hreceived.trans received) ?_ (by omega)
    · intro g hg hs
      exact carried g (hsends g hg hs) hs
    · intro f hf r hr
      refine result f (hreceives f hf ?_) r hr
      rw [ReceiveFuture.received, hr]

theorem not_received_of_idle {f : ReceiveFuture V} (h : f.status.idle = true) :
    f.received = false := by
  revert h
  unfold ReceiveFuture.received
  cases f.status <;> simp [ReceiveStatus.idle]

/-- A `receive` is polled and gets no value. -/
theorem received_set {f b : ReceiveFuture V} (hf : c.receives[j]? = some f)
    (hidle : f.status.idle = true) (hb : b.received = false) :
    (c.receives.set j b).countP ReceiveFuture.received =
        c.receives.countP ReceiveFuture.received ∧
      ∀ g ∈ c.receives.set j b, g.received = true → g ∈ c.receives := by
  constructor
  · have := countP_set hf ReceiveFuture.received b
    rw [not_received_of_idle hidle, hb] at this
    exact this
  · apply forall_mem_set
    · intro g hg _
      exact hg
    · intro hb'
      rw [hb] at hb'
      cases hb'

/-- An end is closed or moved. -/
theorem Once.closeEnd (h : Once c) (hvalue : c'.shared.value = c.shared.value)
    (hsends : c'.sends = c.sends) (hreceives : c'.receives = c.receives)
    (hsenders : holders c'.senders ≤ holders c.senders)
    (hreceivers : holders c'.receivers ≤ holders c.receivers) : Once c' := by
  have hs := h.senders
  have hr := h.receivers
  refine ⟨by omega, by omega, ?_, ?_⟩
  · rw [hsends]
    exact h.returned
  · refine h.phase.congr hvalue (by rw [hsends]) ?_ hsenders hreceivers (by rw [hreceives]) ?_
    · intro g hg _
      rwa [hsends] at hg
    · intro f hf _
      rwa [hreceives] at hf

/-- A `receive` is polled and gets no value; its `Receiver` may be closed. -/
theorem Once.poll (h : Once c) {f b : ReceiveFuture V} (hf : c.receives[j]? = some f)
    (hidle : f.status.idle = true) (hb : b.received = false)
    (hvalue : c'.shared.value = c.shared.value) (hsends : c'.sends = c.sends)
    (hsenders : c'.senders = c.senders)
    (hreceivers : holders c'.receivers ≤ holders c.receivers)
    (hreceives : c'.receives = c.receives.set j b) : Once c' := by
  obtain ⟨hcount, hmem⟩ := received_set hf hidle hb
  have hr := h.receivers
  refine ⟨by rw [hsenders]; exact h.senders, by omega, by rw [hsends]; exact h.returned, ?_⟩
  refine h.phase.congr hvalue (by rw [hsends]) ?_ (Nat.le_of_eq (by rw [hsenders])) hreceivers
    (by rw [hreceives]; exact hcount) (by rw [hreceives]; exact hmem)
  intro g hg _
  rwa [hsends] at hg

theorem sendWhole_once (h : Once c) {owner : ℕ} {value : V}
    (hstep : c.sendWhole owner value = some c') : Once c' := by
  obtain ⟨shared, hs, ⟨-, rfl⟩ | ⟨rfl, -, rfl⟩⟩ := sendWhole_cases hstep
  · refine ⟨h.senders, h.receivers, ?_, ?_⟩
    · apply forall_mem_concat h.returned
      rintro v ⟨⟩
      rfl
    · refine h.phase.congr rfl ?_ ?_ (Nat.le_refl _) (Nat.le_refl _) rfl fun _ hf _ => hf
      · simp [List.countP_append, SendFuture.succeeded]
      · apply forall_mem_concat
        · intro g hg _
          exact hg
        · intro hsucc
          cases hsucc
  · -- the `Sender` holds the channel, so nothing was sent before
    have hpos := holders_pos hs
    have hset := holders_set hs (e := .live false) (by simp)
    have hone := h.senders
    cases h.phase with
    | sent v _ _ _ sender _ => omega
    | delivered v _ _ _ sender _ _ _ => omega
    | unsent hempty sent received =>
      refine ⟨by show holders (c.senders.set owner _) ≤ 1; omega, h.receivers, ?_, ?_⟩
      · apply forall_mem_concat h.returned
        rintro v ⟨⟩
      · refine .sent value rfl ?_ ?_ (by show holders (c.senders.set owner _) = 0; omega) ?_
        · simp [List.countP_append, sent, SendFuture.succeeded]
        · apply forall_mem_concat
          · intro g hg hsucc
            exact absurd hsucc (List.countP_eq_zero.mp sent g hg)
          · intro _
            rfl
        · show (wakeReceive c.shared.receiver c.receives).countP _ = 0
          rw [← received]
          cases c.shared.receiver with
          | none => rfl
          | some i => exact countP_modify _ fun _ => rfl

theorem pollReceive_once (h : Once c) (hstep : c.pollReceive j = some c') : Once c' := by
  obtain ⟨f, shared, hf, hs, hidle, hcases⟩ := pollReceive_cases hstep
  rcases hcases with ⟨-, rfl⟩ | ⟨value, rfl, hv, rfl⟩ | ⟨rfl, hv, rfl⟩ | ⟨rfl, hv, -, rfl⟩ |
    ⟨-, -, -, rfl⟩
  · exact h.poll hf hidle rfl rfl rfl rfl (Nat.le_refl _) rfl
  · have hset := holders_set hs (e := .live false) (by simp)
    have hone := h.receivers
    have hzero : holders (c.receivers.set f.owner (.live false)) = 0 := by omega
    cases h.phase with
    | unsent hempty _ _ => rw [hv] at hempty; cases hempty
    | delivered v hmoved _ _ _ _ _ _ => rw [hv] at hmoved; cases hmoved
    | sent v hfull sent carried sender received =>
      obtain rfl : value = v := by
        rw [hv] at hfull
        exact Cell.full.inj hfull
      refine ⟨h.senders, Nat.le_trans (Nat.le_of_eq hzero) (Nat.zero_le 1), h.returned, ?_⟩
      refine .delivered value rfl sent carried sender ?_ ?_ hzero
      · have := countP_set hf ReceiveFuture.received
          { f with status := .ready (.ok (some value)), wakes := 0 }
        rw [not_received_of_idle hidle, received] at this
        exact this
      · apply forall_mem_set
        · intro g hg r hr
          have := List.countP_eq_zero.mp received g hg
          rw [ReceiveFuture.received, hr] at this
          exact absurd rfl this
        · rintro r ⟨⟩
          rfl
  · -- a value that was moved out has left no `Receiver` with the channel
    have hpos := holders_pos hs
    cases h.phase with
    | unsent hempty _ _ => rw [hv] at hempty; cases hempty
    | sent v hfull _ _ _ _ => rw [hv] at hfull; cases hfull
    | delivered v _ _ _ _ _ _ receiver => omega
  · have hset := holders_set hs (e := .live false) (by simp)
    exact h.poll hf hidle rfl hv.symm rfl rfl
      (by show holders (c.receivers.set f.owner _) ≤ _; omega) rfl
  · exact h.poll hf hidle rfl rfl rfl rfl (Nat.le_refl _) rfl

theorem opStep_once (h : Once c) {op : Op V} (hstep : c.opStep op = some c') : Once c' := by
  cases op with
  | send owner value => exact sendWhole_once h hstep
  | pollReceive j => exact pollReceive_once h hstep
  | receive owner =>
    obtain ⟨shared, -, rfl⟩ := receive_cases hstep
    refine ⟨h.senders, h.receivers, h.returned, ?_⟩
    refine h.phase.congr rfl rfl (fun _ hg _ => hg) (Nat.le_refl _) (Nat.le_refl _) ?_ ?_
    · simp [List.countP_append, ReceiveFuture.received]
    · apply forall_mem_concat
      · intro f hf _
        exact hf
      · intro hr
        cases hr
  | moveSender i =>
    obtain ⟨senders, hm, rfl⟩ := moveSender_cases hstep
    exact h.closeEnd rfl rfl rfl (Nat.le_of_eq (holders_moveConstruct hm)) (Nat.le_refl _)
  | moveReceiver i =>
    obtain ⟨receivers, hm, rfl⟩ := moveReceiver_cases hstep
    exact h.closeEnd rfl rfl rfl (Nat.le_refl _) (Nat.le_of_eq (holders_moveConstruct hm))
  | assignSender i j =>
    obtain ⟨senders, hm, rfl⟩ := assignSender_cases hstep
    exact h.closeEnd rfl rfl rfl (holders_moveAssign hm) (Nat.le_refl _)
  | assignReceiver i j =>
    obtain ⟨receivers, hm, rfl⟩ := assignReceiver_cases hstep
    exact h.closeEnd rfl rfl rfl (Nat.le_refl _) (holders_moveAssign hm)
  | dropSender i =>
    obtain ⟨shared, hs, rfl⟩ := dropSender_cases hstep
    exact h.closeEnd closeSender_value closeSender_sends closeSender_receives
      (holders_set_le (by simp) ⟨_, hs⟩) (Nat.le_of_eq (by rw [closeSender_receivers]))
  | dropReceiver i =>
    obtain ⟨shared, hs, rfl⟩ := dropReceiver_cases hstep
    exact h.closeEnd closeReceiver_value closeReceiver_sends closeReceiver_receives
      (Nat.le_of_eq (by rw [closeReceiver_senders])) (holders_set_le (by simp) ⟨_, hs⟩)

/-- The successful `send` and its value, while the value is in `value_`. -/
theorem Phase.value_of_sent (h : Phase c) {g : SendFuture V} (hg : g ∈ c.sends)
    (hs : g.succeeded = true) :
    c.shared.value = .full g.value ∨ c.shared.value = .movedOut ∧ holders c.receivers = 0 := by
  cases h with
  | unsent value sent received => exact absurd hs (List.countP_eq_zero.mp sent g hg)
  | sent v value sent carried sender received => exact Or.inl (carried g hg hs ▸ value)
  | delivered v value sent carried sender received result receiver =>
    exact Or.inr ⟨value, receiver⟩

/-- A poll of a `receive` whose `Receiver` holds the channel, with a value to receive. -/
theorem pollReceive_full {f : ReceiveFuture V} {v : V} (hf : c.receives[j]? = some f)
    (hidle : f.status.idle = true) (hs : c.receivers[f.owner]? = some (.live true))
    (hv : c.shared.value = .full v) :
    c.pollReceive j = some (c.received j f .movedOut (.ok (some v))) := by
  simp only [pollReceive, onReceive, hf, hs, hidle, hv, if_true]
  rfl

theorem deliversOnce_of_once (h : Once c) : c.DeliversOnce where
  sentOnce := by
    cases h.phase with
    | unsent _ sent _ => omega
    | sent _ _ sent _ _ _ => omega
    | delivered _ _ sent _ _ _ _ _ => omega
  returned := h.returned
  receivedOnce := by
    cases h.phase with
    | unsent _ _ received => omega
    | sent _ _ _ _ _ received => omega
    | delivered _ _ _ _ _ received _ _ => omega
  sent := by
    intro f hf r hr
    have hpos : 0 < c.receives.countP ReceiveFuture.received :=
      List.countP_pos_iff.mpr ⟨f, hf, by rw [ReceiveFuture.received, hr]⟩
    cases h.phase with
    | unsent _ _ received => omega
    | sent _ _ _ _ _ received => omega
    | delivered v _ sent carried _ _ result _ =>
      obtain ⟨g, hg, hsucc⟩ := List.countP_pos_iff.mp (Nat.lt_of_lt_of_eq Nat.one_pos sent.symm)
      exact ⟨g, hg, hsucc, by rw [result f hf r hr, carried g hg hsucc]⟩
  next := by
    intro g hg hsucc j f hf hidle hs
    have hv : c.shared.value = .full g.value := by
      rcases h.phase.value_of_sent hg hsucc with hv | ⟨-, hzero⟩
      · exact hv
      · have := holders_pos hs
        omega
    exact ⟨_, pollReceive_full hf hidle hs hv, get_set_self hf _⟩
  error := by
    intro j f f' c' hf hstep hf' herror
    obtain ⟨g, shared, hg, hs, hidle, hcases⟩ := pollReceive_cases hstep
    obtain rfl : f = g := Option.some.inj (hf.symm.trans hg)
    have hstatus : ∀ {b : ReceiveFuture V} {result : Except Unit (Option V)},
        (c.receives.set j b)[j]? = some f' → b.status = .ready result → result = .error () := by
      intro b result hb hr
      rw [get_set_self hf] at hb
      obtain rfl := Option.some.inj hb
      rw [hr] at herror
      exact ReceiveStatus.ready.inj herror
    have hempty : c.shared.value = .empty → ¬ c.Undelivered := by
      rintro hv ⟨⟨g, hg, hsucc⟩, -⟩
      rcases h.phase.value_of_sent hg hsucc with hv' | ⟨hv', -⟩
      · rw [hv] at hv'
        cases hv'
      · rw [hv] at hv'
        cases hv'
    rcases hcases with ⟨rfl, -⟩ | ⟨value, -, -, rfl⟩ | ⟨-, -, rfl⟩ | ⟨-, hv, -, -⟩ | ⟨-, hv, -, -⟩
    · exact Or.inl hs
    · have := hstatus hf' rfl
      cases this
    · have := hstatus hf' rfl
      cases this
    · exact Or.inr (hempty hv)
    · exact Or.inr (hempty hv)

/-- After any sequence of operations on the channel: at most one `send` has succeeded, the others
gave back their own value, at most one `receive` has returned a value, which is the one sent; a value
that was sent is what the next poll returns, and the error means that there is none, as long as the
`receive` is one of the `Receiver` that holds the channel. -/
theorem oneshot_delivers_once {ops : List (Op V)} (hrun : run opStep new ops = some c) :
    c.DeliversOnce :=
  deliversOnce_of_once (run_invariant (fun _ _ _ h hs => opStep_once h hs) once_new hrun)

/-- The `receive` waits, both ends are moved, and the value is sent and received. -/
def movedRun : List (Op ℕ) :=
  [.receive 0, .pollReceive 0, .moveSender 0, .moveReceiver 0, .send 1 10, .send 0 20, .receive 1,
    .pollReceive 1]

theorem oneshot_delivers_once_run :
    ∃ c, run opStep new movedRun = some c ∧ c.sends.countP SendFuture.succeeded = 1 ∧
      c.receives[1]? = some ⟨1, .ready (.ok (some 10)), 0⟩ ∧ c.DeliversOnce := by
  obtain ⟨c, hrun, hsent, hreceived⟩ : ∃ c, run opStep new movedRun = some c ∧
      c.sends.countP SendFuture.succeeded = 1 ∧
      c.receives[1]? = some ⟨1, .ready (.ok (some 10)), 0⟩ :=
    exists_run (by decide)
  exact ⟨c, hrun, hsent, hreceived, oneshot_delivers_once hrun⟩

/-- The `Receiver` is moved while a `receive` waits. The poll that the `send` causes returns the
error, and the value is left to the new `Receiver`. -/
theorem receive_error_after_move :
    ∃ c c', run opStep (new : Channel ℕ) [.receive 0, .pollReceive 0, .moveReceiver 0, .send 0 10] =
        some c ∧ c.Undelivered ∧ c.receivers = [.live false, .live true] ∧
      c.pollReceive 0 = some c' ∧ c'.receives[0]? = some ⟨0, .ready (.error ()), 0⟩ ∧
      c'.Undelivered := by
  obtain ⟨c, hrun, hsends, hreceivers, hreceives⟩ : ∃ c, run opStep (new : Channel ℕ)
      [.receive 0, .pollReceive 0, .moveReceiver 0, .send 0 10] = some c ∧
      c.sends = [⟨0, 10, .ready (.ok ())⟩] ∧ c.receivers = [.live false, .live true] ∧
      c.receives = [⟨0, .pending, 1⟩] :=
    exists_run (by decide)
  have hsent : ∃ f ∈ c.sends, f.succeeded = true := by
    rw [hsends]
    exact ⟨_, List.mem_singleton_self _, rfl⟩
  have hpoll : c.pollReceive 0 = some { c with receives := [⟨0, .ready (.error ()), 0⟩] } := by
    simp [pollReceive, onReceive, hreceives, hreceivers, ReceiveStatus.idle]
  refine ⟨c, _, hrun, ⟨hsent, ?_⟩, hreceivers, hpoll, rfl, hsent, ?_⟩
  · rw [hreceives]
    simp [ReceiveFuture.received]
  · simp [ReceiveFuture.received]

end Channel

end Xyco.Sync.Oneshot
