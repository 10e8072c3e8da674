import Xyco.Machine.Table
import Xyco.Sync.Oneshot

/-!
# Proofs: what one access of the oneshot channel does

One inversion lemma for every step, with the guards it ran under and the channel it left.
-/

namespace Xyco.Sync.Oneshot

open Machine

variable {V : Type*} {k j i : ℕ} {c c' : Channel V}

theorem moveConstruct_cases {ends ends' : List End} (h : moveConstruct ends i = some ends') :
    ∃ shared, ends[i]? = some (.live shared) ∧
      ends' = ends.set i (.live false) ++ [.live shared] := by
  unfold moveConstruct at h
  split at h
  · rename_i shared hi
    exact ⟨shared, hi, (Option.some.inj h).symm⟩
  · cases h

theorem moveAssign_cases {ends ends' : List End} (h : moveAssign ends i j = some ends') :
    ∃ old shared, ends[i]? = some (.live old) ∧ ends[j]? = some (.live shared) ∧
      ((i = j ∧ ends' = ends) ∨
        (i ≠ j ∧ ends' = (ends.set i (.live shared)).set j (.live false))) := by
  unfold moveAssign at h
  split at h
  · rename_i old shared hi hj
    exact ⟨old, shared, hi, hj, eq_of_branch h⟩
  · cases h

namespace Channel

theorem onSend_eq_some {next : SendFuture V → Bool → Option (Channel V)}
    (h : c.onSend k next = some c') :
    ∃ f shared, c.sends[k]? = some f ∧ c.senders[f.owner]? = some (.live shared) ∧
      next f shared = some c' := by
  unfold onSend at h
  split at h
  · rename_i f hf
    split at h
    · rename_i shared hs
      exact ⟨f, shared, hf, hs, h⟩
    · cases h
  · cases h

theorem onReceive_eq_some {next : ReceiveFuture V → Bool → Option (Channel V)}
    (h : c.onReceive j next = some c') :
    ∃ f shared, c.receives[j]? = some f ∧ c.receivers[f.owner]? = some (.live shared) ∧
      next f shared = some c' := by
  unfold onReceive at h
  split at h
  · rename_i f hf
    split at h
    · rename_i shared hs
      exact ⟨f, shared, hf, hs, h⟩
    · cases h
  · cases h

/-! ## `send` -/

theorem send_cases {owner : ℕ} {value : V} (h : c.send owner value = some c') :
    ∃ shared, c.senders[owner]? = some (.live shared) ∧
      c' = { c with sends := c.sends ++ [⟨owner, value, .created⟩] } := by
  unfold send at h
  split at h
  · rename_i shared hs
    exact ⟨shared, hs, (Option.some.inj h).symm⟩
  · cases h

theorem sendTest_cases (h : c.sendTest k = some c') :
    ∃ f shared, c.sends[k]? = some f ∧ c.senders[f.owner]? = some (.live shared) ∧
      f.status = .created ∧
      (((shared = false ∨ c.shared.state = .receiverClosed) ∧
          c' = { c with sends := c.sends.set k { f with status := .ready (.error f.value) } }) ∨
        (shared = true ∧ c.shared.state ≠ .receiverClosed ∧
          c' = { c with sends := c.sends.set k { f with status := .tested } })) := by
  obtain ⟨f, shared, hf, hs, hnext⟩ := onSend_eq_some h
  split at hnext
  · rename_i hstatus
    refine ⟨f, shared, hf, hs, hstatus, ?_⟩
    by_cases hfail : shared = false ∨ c.shared.state = .receiverClosed
    · left
      rw [if_pos hfail] at hnext
      exact ⟨hfail, (Option.some.inj hnext).symm⟩
    · right
      rw [if_neg hfail] at hnext
      rw [not_or, Bool.not_eq_false] at hfail
      exact ⟨hfail.1, hfail.2, (Option.some.inj hnext).symm⟩
  · cases hnext

theorem sendStore_cases (h : c.sendStore k = some c') :
    ∃ f, c.sends[k]? = some f ∧ c.senders[f.owner]? = some (.live true) ∧ f.status = .tested ∧
      c' = { c with
        shared := { c.shared with value := .full f.value }
        sends := c.sends.set k { f with status := .stored } } := by
  obtain ⟨f, shared, hf, hs, hnext⟩ := onSend_eq_some h
  split at hnext
  · rename_i hstatus
    exact ⟨f, hf, hs, hstatus, (Option.some.inj hnext).symm⟩
  · cases hnext

theorem sendRegister_cases (h : c.sendRegister k = some c') :
    ∃ f, c.sends[k]? = some f ∧ c.senders[f.owner]? = some (.live true) ∧ f.status = .stored ∧
      c' = { c with
        sends := c.sends.set k { f with status := .registered }
        receives := wakeReceive c.shared.receiver c.receives } := by
  obtain ⟨f, shared, hf, hs, hnext⟩ := onSend_eq_some h
  split at hnext
  · rename_i hstatus
    exact ⟨f, hf, hs, hstatus, (Option.some.inj hnext).symm⟩
  · cases hnext

theorem sendClose_cases (h : c.sendClose k = some c') :
    ∃ f shared, c.sends[k]? = some f ∧ c.senders[f.owner]? = some (.live shared) ∧
      f.status = .registered ∧ c' = { c.closeSender f.owner with
        sends := c.sends.set k { f with status := .ready (.ok ()) } } := by
  obtain ⟨f, shared, hf, hs, hnext⟩ := onSend_eq_some h
  split at hnext
  · rename_i hstatus
    exact ⟨f, shared, hf, hs, hstatus, (Option.some.inj hnext).symm⟩
  · cases hnext

/-! ## `receive` -/

theorem receive_cases {owner : ℕ} (h : c.receive owner = some c') :
    ∃ shared, c.receivers[owner]? = some (.live shared) ∧
      c' = { c with receives := c.receives ++ [⟨owner, .created, 0⟩] } := by
  unfold receive at h
  split at h
  · rename_i shared hs
    exact ⟨shared, hs, (Option.some.inj h).symm⟩
  · cases h

/-- The first step of a poll finds `value_` empty, or its result is known. -/
theorem receiveValue_cases (h : c.receiveValue j = some c') :
    ∃ f shared, c.receives[j]? = some f ∧ c.receivers[f.owner]? = some (.live shared) ∧
      f.status.idle = true ∧
      ((shared = true ∧ c.shared.value = .empty ∧ c' = { c with
          receives := c.receives.set j { f with status := .emptySeen, wakes := 0 } }) ∨
        (∃ value, shared = true ∧ c.shared.value = .full value ∧ c' = { c with
          shared := { c.shared with value := .movedOut }
          receives := c.receives.set j
            { f with status := .closing (.ok (some value)), wakes := 0 } }) ∨
        (∃ result, c' = { c with
          receives := c.receives.set j { f with status := .closing result, wakes := 0 } })) := by
  obtain ⟨f, shared, hf, hs, hnext⟩ := onReceive_eq_some h
  by_cases hidle : f.status.idle = true
  · rw [if_pos hidle] at hnext
    refine ⟨f, shared, hf, hs, hidle, ?_⟩
    cases shared with
    | false => exact Or.inr (Or.inr ⟨_, (Option.some.inj hnext).symm⟩)
    | true =>
      rw [if_pos rfl] at hnext
      split at hnext
      · rename_i hv
        exact Or.inl ⟨rfl, hv, (Option.some.inj hnext).symm⟩
      · rename_i value hv
        exact Or.inr (Or.inl ⟨value, rfl, hv, (Option.some.inj hnext).symm⟩)
      · exact Or.inr (Or.inr ⟨_, (Option.some.inj hnext).symm⟩)
  · rw [if_neg hidle] at hnext
    cases hnext

theorem receiveState_cases (h : c.receiveState j = some c') :
    ∃ f, c.receives[j]? = some f ∧ f.status = .emptySeen ∧
      c' = { c with receives := c.receives.set j { f with
        status := if c.shared.state = .senderClosed then .closing (.error ()) else .openSeen } } := by
  obtain ⟨f, shared, hf, hs, hnext⟩ := onReceive_eq_some h
  split at hnext
  · rename_i hstatus
    exact ⟨f, hf, hstatus, (Option.some.inj hnext).symm⟩
  · cases hnext

theorem receiveStore_cases (h : c.receiveStore j = some c') :
    ∃ f, c.receives[j]? = some f ∧ f.status = .openSeen ∧ c' = { c with
      shared := { c.shared with receiver := some j }
      receives := c.receives.set j { f with status := .pending } } := by
  obtain ⟨f, shared, hf, hs, hnext⟩ := onReceive_eq_some h
  split at hnext
  · rename_i hstatus
    exact ⟨f, hf, hstatus, (Option.some.inj hnext).symm⟩
  · cases hnext

theorem receiveClose_cases (h : c.receiveClose j = some c') :
    ∃ f result, c.receives[j]? = some f ∧ f.status = .closing result ∧
      c' = { c.closeReceiver f.owner with
        receives := c.receives.set j { f with status := .ready result } } := by
  obtain ⟨f, shared, hf, hs, hnext⟩ := onReceive_eq_some h
  split at hnext
  · rename_i result hstatus
    exact ⟨f, result, hf, hstatus, (Option.some.inj hnext).symm⟩
  · cases hnext

/-! ## The ends -/

theorem moveSender_cases (h : c.moveSender i = some c') :
    ∃ senders, moveConstruct c.senders i = some senders ∧ c' = { c with senders := senders } := by
  obtain ⟨senders, hm, rfl⟩ := Option.map_eq_some_iff.mp h
  exact ⟨senders, hm, rfl⟩

theorem moveReceiver_cases (h : c.moveReceiver i = some c') :
    ∃ receivers, moveConstruct c.receivers i = some receivers ∧
      c' = { c with receivers := receivers } := by
  obtain ⟨receivers, hm, rfl⟩ := Option.map_eq_some_iff.mp h
  exact ⟨receivers, hm, rfl⟩

theorem assignSender_cases (h : c.assignSender i j = some c') :
    ∃ senders, moveAssign c.senders i j = some senders ∧ c' = { c with senders := senders } := by
  obtain ⟨senders, hm, rfl⟩ := Option.map_eq_some_iff.mp h
  exact ⟨senders, hm, rfl⟩

theorem assignReceiver_cases (h : c.assignReceiver i j = some c') :
    ∃ receivers, moveAssign c.receivers i j = some receivers ∧
      c' = { c with receivers := receivers } := by
  obtain ⟨receivers, hm, rfl⟩ := Option.map_eq_some_iff.mp h
  exact ⟨receivers, hm, rfl⟩

theorem dropSender_cases (h : c.dropSender i = some c') :
    ∃ shared, c.senders[i]? = some (.live shared) ∧
      c' = { c.closeSender i with senders := c.senders.set i .destroyed } := by
  unfold dropSender at h
  split at h
  · rename_i shared hs
    exact ⟨shared, hs, (Option.some.inj h).symm⟩
  · cases h

theorem dropReceiver_cases (h : c.dropReceiver i = some c') :
    ∃ shared, c.receivers[i]? = some (.live shared) ∧
      c' = { c.closeReceiver i with receivers := c.receivers.set i .destroyed } := by
  unfold dropReceiver at h
  split at h
  · rename_i shared hs
    exact ⟨shared, hs, (Option.some.inj h).symm⟩
  · cases h

/-! `close` changes `state_` and nothing else that is shared. -/

@[simp] theorem closeSender_value : (c.closeSender i).shared.value = c.shared.value := by
  unfold closeSender
  split <;> rfl

@[simp] theorem closeSender_receiver : (c.closeSender i).shared.receiver = c.shared.receiver := by
  unfold closeSender
  split <;> rfl

@[simp] theorem closeSender_receives : (c.closeSender i).receives = c.receives := by
  unfold closeSender
  split <;> rfl

@[simp] theorem closeSender_sends : (c.closeSender i).sends = c.sends := by
  unfold closeSender
  split <;> rfl

@[simp] theorem closeSender_receivers : (c.closeSender i).receivers = c.receivers := by
  unfold closeSender
  split <;> rfl

@[simp] theorem closeReceiver_value : (c.closeReceiver i).shared.value = c.shared.value := by
  unfold closeReceiver
  split <;> rfl

@[simp] theorem closeReceiver_receiver :
    (c.closeReceiver i).shared.receiver = c.shared.receiver := by
  unfold closeReceiver
  split <;> rfl

@[simp] theorem closeReceiver_receives : (c.closeReceiver i).receives = c.receives := by
  unfold closeReceiver
  split <;> rfl

@[simp] theorem closeReceiver_sends : (c.closeReceiver i).sends = c.sends := by
  unfold closeReceiver
  split <;> rfl

@[simp] theorem closeReceiver_senders : (c.closeReceiver i).senders = c.senders := by
  unfold closeReceiver
  split <;> rfl

theorem closeSender_of_null (h : c.senders[i]? ≠ some (.live true)) : c.closeSender i = c := by
  unfold closeSender
  rw [if_neg h]

/-- `Receiver::close` never leaves `sender_closed` where it was not. -/
theorem closeReceiver_state (h : c.shared.state ≠ .senderClosed) :
    (c.closeReceiver i).shared.state ≠ .senderClosed := by
  unfold closeReceiver
  split
  · simp
  · exact h

end Channel

end Xyco.Sync.Oneshot
