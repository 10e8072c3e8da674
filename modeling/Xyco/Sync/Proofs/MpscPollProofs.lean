import Xyco.Sync.Proofs.MpscQueueProofs

/-!
# Proofs: the mpsc channel a poll at a time

A whole poll is a run of its sections, so what holds of the sections in any order holds here. The two
promises about waking are kept exactly by the runs that meet their conditions.
-/

namespace Xyco.Sync.Mpsc.Channel

open Machine Table

variable {V : Type*} {size k j : ℕ} {c c' : Channel V} {a : PollAction V}

/-! ## What one poll does -/

theorem pollSend_cases (h : c.pollSend size k = some c') :
    ∃ f, c.sends[k]? = some f ∧ f.status.idle = true ∧ c.senderAlive[f.owner]? = some true ∧
      ((c.shared.state = .receiverClosed ∧ c' = { c with
          sends := c.sends.set k { f with status := .ready (.error f.value), wakes := 0 } }) ∨
        (c.Pushes size ∧ c' = { c with
          shared := { c.shared with queue := c.shared.queue ++ [f.value] }
          sends := c.sends.set k { f with status := .ready (.ok ()), wakes := 0 }
          receives := wakeReceive c.shared.receiver c.receives
          pushed := c.pushed ++ [(k, f.value)]
          pushes := c.pushes + 1 }) ∨
        (¬ c.Pushes size ∧ c.shared.state ≠ .receiverClosed ∧ c' = { c with
          shared := c.shared.park k
          sends := c.sends.set k { f with status := .pending, wakes := 0 } })) := by
  obtain ⟨f, hf, hidle, ha, rfl⟩ := onSend_eq_some h
  refine ⟨f, hf, hidle, ha, ?_⟩
  by_cases hclosed : c.shared.state = .receiverClosed
  · left
    exact ⟨hclosed, if_pos hclosed⟩
  · right
    rw [if_neg hclosed]
    by_cases hlt : c.shared.queue.length < size
    · left
      exact ⟨⟨hclosed, hlt⟩, by simp only [Shared.push, if_pos hlt]⟩
    · right
      exact ⟨fun hp => hlt hp.2, hclosed, by simp only [Shared.push, if_neg hlt]⟩

theorem pollReceive_cases (h : c.pollReceive j = some c') :
    ∃ f, c.receives[j]? = some f ∧ f.status.idle = true ∧ c.receiverAlive = true ∧
      ((∃ top queue, c.shared.queue = top :: queue ∧ c' = { c with
          shared := { c.shared with queue := queue, senders := c.shared.senders.tail }
          sends := wakeSend c.shared.senders.head? c.sends
          receives := c.receives.set j ⟨.ready (some top), 0⟩
          taken := c.taken ++ [(j, top)] }) ∨
        (c.shared.queue = [] ∧ c.shared.state = .senderClosed ∧
          c' = { c with receives := c.receives.set j ⟨.ready none, 0⟩ }) ∨
        (c.shared.queue = [] ∧ c.shared.state ≠ .senderClosed ∧ c' = { c with
          shared := { c.shared with receiver := some j }
          receives := c.receives.set j ⟨.pending, 0⟩
          pushes := 0 })) := by
  obtain ⟨f, hf, hidle, ha, hnext⟩ := onReceive_idle h
  refine ⟨f, hf, hidle, ha, ?_⟩
  rcases c.shared.pop_cases j with ⟨top, queue, hq, hpop⟩ | ⟨hq, hs, hpop⟩ | ⟨hq, hs, hpop⟩
  · rw [hpop] at hnext
    simp only [Shared.unpark_eq] at hnext
    exact Or.inl ⟨top, queue, hq, (Option.some.inj hnext).symm⟩
  · rw [hpop] at hnext
    exact Or.inr (Or.inl ⟨hq, hs, (Option.some.inj hnext).symm⟩)
  · rw [hpop] at hnext
    exact Or.inr (Or.inr ⟨hq, hs, (Option.some.inj hnext).symm⟩)

/-! ## A poll is a run of its sections -/

theorem pollSend_reachable (h : c.pollSend size k = some c') : Reachable (step size) c c' := by
  obtain ⟨f, hf, hidle, ha, hcases⟩ := pollSend_cases h
  rcases hcases with ⟨hclosed, rfl⟩ | ⟨⟨hclosed, hlt⟩, rfl⟩ | ⟨hfull, hclosed, rfl⟩
  · refine ⟨[.sendTest k], ?_⟩
    simp [step, sendTest, onSend, hf, hidle, ha, hclosed]
  · refine ⟨[.sendTest k, .sendQueue k], ?_⟩
    simp [step, sendTest, sendQueue, onSend, hf, get_set hf, hidle, ha, hclosed, hlt, Shared.push]
  · have hlt : ¬ c.shared.queue.length < size := fun hlt => hfull ⟨hclosed, hlt⟩
    refine ⟨[.sendTest k, .sendQueue k, .sendPark k], ?_⟩
    simp [step, sendTest, sendQueue, sendPark, onSend, hf, get_set hf, hidle, ha, hclosed, hlt,
      Shared.push]

theorem pollReceive_reachable (h : c.pollReceive j = some c') : Reachable (step size) c c' := by
  obtain ⟨f, hf, hidle, ha, hcases⟩ := pollReceive_cases h
  rcases hcases with ⟨top, queue, hq, rfl⟩ | ⟨hq, hs, rfl⟩ | ⟨hq, hs, rfl⟩
  · refine ⟨[.receiveQueue j, .receiveWake j], ?_⟩
    simp [step, receiveQueue, receiveWake, onReceive, hf, get_set hf, hidle, ha, Shared.pop_cons hq,
      Shared.unpark_eq]
  · refine ⟨[.receiveQueue j], ?_⟩
    simp [step, receiveQueue, onReceive, hf, hidle, ha, Shared.pop_closed hq hs]
  · refine ⟨[.receiveQueue j], ?_⟩
    simp [step, receiveQueue, onReceive, hf, hidle, ha, Shared.pop_open hq hs]

theorem pollStep_reachable (h : c.pollStep size a = some c') : Reachable (step size) c c' := by
  cases a with
  | send owner value => exact (Reachable.refl c).tail (a := Action.send owner value) h
  | receive => exact (Reachable.refl c).tail (a := Action.receive) h
  | pollSend k => exact pollSend_reachable h
  | pollReceive j => exact pollReceive_reachable h
  | copySender i => exact (Reachable.refl c).tail (a := Action.copySender i) h
  | dropSender i => exact (Reachable.refl c).tail (a := Action.dropSender i) h
  | dropReceiver => exact (Reachable.refl c).tail (a := Action.dropReceiver) h

theorem pollStep_ends (hE : Ends c) (h : c.pollStep size a = some c') : Ends c' :=
  (pollStep_reachable h).invariant hE fun _ _ _ hE hs => step_ends hE hs

end Xyco.Sync.Mpsc.Channel
