import Xyco.Sync.MpscSpec
import Xyco.Sync.Proofs.MpscStepProofs

/-!
# Proofs: the mpsc channel is a bounded FIFO queue
-/

namespace Xyco.Sync.Mpsc.Channel

open Machine Table

variable {V : Type*} {size : ℕ} {c c' : Channel V} {a : Action V} {as : List (Action V)}

/-! ## The queue -/

/-- Every section leaves the queue alone, or pushes one value, or takes one. -/
theorem step_fifo (hstep : c.step size a = some c') :
    c'.fifo = c.fifo ∨ ∃ op, c.fifo.step size op = some c'.fifo := by
  cases a with
  | send owner value =>
    obtain ⟨-, rfl⟩ := send_cases hstep
    exact Or.inl rfl
  | receive =>
    obtain ⟨-, rfl⟩ := receive_cases hstep
    exact Or.inl rfl
  | sendTest k =>
    obtain ⟨f, -, -, -, rfl⟩ := sendTest_cases hstep
    exact Or.inl rfl
  | sendQueue k =>
    obtain ⟨f, -, -, -, ⟨hlt, rfl⟩ | ⟨-, rfl⟩⟩ := sendQueue_cases hstep
    · right
      refine ⟨.enqueue f.value, ?_⟩
      show (if c.shared.queue.length < size then _ else none) = _
      rw [if_pos hlt]
      simp [fifo]
    · exact Or.inl rfl
  | sendPark k =>
    obtain ⟨f, -, -, -, rfl⟩ := sendPark_cases hstep
    exact Or.inl rfl
  | receiveQueue j =>
    obtain ⟨f, -, -, -, ⟨top, queue, hq, rfl⟩ | ⟨-, -, rfl⟩ | ⟨-, -, rfl⟩⟩ := receiveQueue_cases hstep
    · right
      refine ⟨.dequeue, ?_⟩
      simp [Fifo.Queue.step, fifo, hq]
    · exact Or.inl rfl
    · exact Or.inl rfl
  | receiveWake j =>
    obtain ⟨f, top, -, -, -, ⟨sender, senders, -, rfl⟩ | ⟨-, rfl⟩⟩ := receiveWake_cases hstep
    · exact Or.inl rfl
    · exact Or.inl rfl
  | copySender i =>
    obtain ⟨-, rfl⟩ := copySender_cases hstep
    exact Or.inl rfl
  | dropSender i =>
    obtain ⟨-, rfl⟩ := dropSender_cases hstep
    exact Or.inl rfl
  | dropReceiver =>
    obtain ⟨-, rfl⟩ := dropReceiver_cases hstep
    exact Or.inl rfl

/-- Every run of the channel is a run of the abstract queue. -/
theorem run_fifo (hrun : run (step size) new as = some c) :
    Fifo.Queue.WellFormed size c.fifo := by
  have hreach : Reachable (step size) (new : Channel V) c := ⟨as, hrun⟩
  exact Fifo.Queue.wellFormed_of_reachable (hreach.simulate fifo fun _ _ _ => step_fifo)

/-! ## The results of the futures -/

/-- The logs are what the futures have returned. -/
structure Logged (c : Channel V) : Prop where
  sends : Agrees SendFuture.pushed c.sends c.pushed
  receives : Agrees ReceiveFuture.taken c.receives c.taken
  error : ∀ (k : ℕ) (f : SendFuture V), c.sends[k]? = some f →
    ∀ v, f.status = .ready (.error v) → v = f.value

theorem logged_new : Logged (new : Channel V) := by
  constructor
  · exact agrees_nil _
  · exact agrees_nil _
  · intro k f hf
    cases hf

theorem pushed_of_idle {f : SendFuture V} (h : f.status.idle = true) : f.pushed = [] := by
  revert h
  unfold SendFuture.pushed
  cases f.status <;> simp [SendStatus.idle]

theorem taken_of_idle {f : ReceiveFuture V} (h : f.status.idle = true) : f.taken = [] := by
  revert h
  unfold ReceiveFuture.taken
  cases f.status <;> simp [ReceiveStatus.idle]

theorem agrees_wakeReceive {receives : List (ReceiveFuture V)} {log : List (ℕ × V)}
    (h : Agrees ReceiveFuture.taken receives log) (future : Option ℕ) :
    Agrees ReceiveFuture.taken (wakeReceive future receives) log := by
  cases future with
  | none => exact h
  | some j => exact h.modify fun _ => rfl

theorem agrees_wakeSend {sends : List (SendFuture V)} {log : List (ℕ × V)}
    (h : Agrees SendFuture.pushed sends log) (future : Option ℕ) :
    Agrees SendFuture.pushed (wakeSend future sends) log := by
  cases future with
  | none => exact h
  | some k => exact h.modify fun _ => rfl

/-- Waking a future changes nothing else about it. -/
theorem forall_wakeSend {P : ℕ → SendFuture V → Prop} {sends : List (SendFuture V)}
    (h : ∀ k f, sends[k]? = some f → P k f)
    (hP : ∀ k f n, P k f → P k { f with wakes := n }) (future : Option ℕ) :
    ∀ k f, (wakeSend future sends)[k]? = some f → P k f := by
  cases future with
  | none => exact h
  | some k => exact forall_modify h fun f => hP k f _

theorem forall_wakeReceive {P : ℕ → ReceiveFuture V → Prop} {receives : List (ReceiveFuture V)}
    (h : ∀ j f, receives[j]? = some f → P j f)
    (hP : ∀ j f n, P j f → P j { f with wakes := n }) (future : Option ℕ) :
    ∀ j f, (wakeReceive future receives)[j]? = some f → P j f := by
  cases future with
  | none => exact h
  | some j => exact forall_modify h fun f => hP j f _

/-- A section after which a `send` has still pushed what it had pushed before. -/
theorem Logged.setSend (h : Logged c) {k : ℕ} {f g : SendFuture V} (hf : c.sends[k]? = some f)
    (hsends : c'.sends = c.sends.set k g) (hreceives : c'.receives = c.receives)
    (hlog : c'.pushed = c.pushed) (htaken : c'.taken = c.taken) (hpushed : g.pushed = f.pushed)
    (herror : ∀ v, g.status = .ready (.error v) → v = g.value) : Logged c' := by
  constructor
  · rw [hsends, hlog]
    exact h.sends.set hf hpushed
  · rw [hreceives, htaken]
    exact h.receives
  · rw [hsends]
    exact forall_set h.error herror

theorem step_logged (h : Logged c) (hstep : c.step size a = some c') : Logged c' := by
  cases a with
  | send owner value =>
    obtain ⟨-, rfl⟩ := send_cases hstep
    constructor
    · exact h.sends.concat rfl
    · exact h.receives
    · refine forall_concat h.error ?_
      intro v hv
      cases hv
  | receive =>
    obtain ⟨-, rfl⟩ := receive_cases hstep
    exact ⟨h.sends, h.receives.concat rfl, h.error⟩
  | sendTest k =>
    obtain ⟨f, hf, hidle, -, rfl⟩ := sendTest_cases hstep
    have hnone := pushed_of_idle hidle
    split
    · refine h.setSend hf rfl rfl rfl rfl hnone.symm ?_
      intro v hv
      cases hv
      rfl
    · refine h.setSend hf rfl rfl rfl rfl hnone.symm ?_
      intro v hv
      cases hv
  | sendQueue k =>
    obtain ⟨f, hf, hchecked, -, hcases⟩ := sendQueue_cases hstep
    have hnone : f.pushed = [] := by simp [SendFuture.pushed, hchecked]
    rcases hcases with ⟨-, rfl⟩ | ⟨-, rfl⟩
    · constructor
      · exact h.sends.record hf hnone rfl
      · exact agrees_wakeReceive h.receives _
      · refine forall_set h.error ?_
        intro v hv
        cases hv
    · refine h.setSend hf rfl rfl rfl rfl hnone.symm ?_
      intro v hv
      cases hv
  | sendPark k =>
    obtain ⟨f, hf, hfull, -, rfl⟩ := sendPark_cases hstep
    have hnone : f.pushed = [] := by simp [SendFuture.pushed, hfull]
    refine h.setSend hf rfl rfl rfl rfl hnone.symm ?_
    intro v hv
    cases hv
  | receiveQueue j =>
    obtain ⟨f, hf, hidle, -, hcases⟩ := receiveQueue_cases hstep
    have hnone := taken_of_idle hidle
    rcases hcases with ⟨top, queue, -, rfl⟩ | ⟨-, -, rfl⟩ | ⟨-, -, rfl⟩
    · exact ⟨h.sends, h.receives.record hf hnone rfl, h.error⟩
    · exact ⟨h.sends, h.receives.set hf hnone.symm, h.error⟩
    · exact ⟨h.sends, h.receives.set hf hnone.symm, h.error⟩
  | receiveWake j =>
    obtain ⟨f, top, hf, hpopped, -, hcases⟩ := receiveWake_cases hstep
    have htaken : f.taken = [top] := by simp [ReceiveFuture.taken, hpopped]
    rcases hcases with ⟨sender, senders, -, rfl⟩ | ⟨-, rfl⟩
    · constructor
      · exact agrees_wakeSend h.sends (some sender)
      · exact h.receives.set hf htaken.symm
      · exact forall_wakeSend h.error (fun _ _ _ hP => hP) (some sender)
    · exact ⟨h.sends, h.receives.set hf htaken.symm, h.error⟩
  | copySender i =>
    obtain ⟨-, rfl⟩ := copySender_cases hstep
    exact ⟨h.sends, h.receives, h.error⟩
  | dropSender i =>
    obtain ⟨-, rfl⟩ := dropSender_cases hstep
    exact ⟨h.sends, h.receives, h.error⟩
  | dropReceiver =>
    obtain ⟨-, rfl⟩ := dropReceiver_cases hstep
    exact ⟨h.sends, h.receives, h.error⟩

/-! ## The end of the channel -/

/-- A `receive` has returned `std::nullopt` only if every `Sender` is gone and the queue is empty. -/
def Finished (c : Channel V) : Prop :=
  ∀ (j : ℕ) (f : ReceiveFuture V), c.receives[j]? = some f → f.status = .ready none →
    c.liveSenders = 0 ∧ c.shared.queue = []

theorem step_finished (hE : Ends c) (h : Finished c) (hstep : c.step size a = some c') :
    Finished c' := by
  -- while a `Sender` is left, no `receive` has returned `std::nullopt`
  have hlive : ∀ {i : ℕ}, c.senderAlive[i]? = some true →
      ∀ (j : ℕ) (f : ReceiveFuture V), c.receives[j]? = some f → f.status ≠ .ready none := by
    intro i hi j f hf hnone
    have hpos := liveSenders_pos hi
    have hzero := (h j f hf hnone).1
    omega
  cases a with
  | send owner value =>
    obtain ⟨-, rfl⟩ := send_cases hstep
    exact h
  | receive =>
    obtain ⟨-, rfl⟩ := receive_cases hstep
    refine forall_concat h ?_
    intro hnone
    cases hnone
  | sendTest k =>
    obtain ⟨f, -, -, -, rfl⟩ := sendTest_cases hstep
    exact h
  | sendQueue k =>
    obtain ⟨f, -, -, hi, ⟨-, rfl⟩ | ⟨-, rfl⟩⟩ := sendQueue_cases hstep
    · intro j g hg hnone
      exact absurd hnone (forall_wakeReceive (hlive hi) (fun _ _ _ hP => hP) _ j g hg)
    · exact h
  | sendPark k =>
    obtain ⟨f, -, -, -, rfl⟩ := sendPark_cases hstep
    exact h
  | receiveQueue j =>
    obtain ⟨f, hf, -, ha, ⟨top, queue, hq, rfl⟩ | ⟨hq, hs, rfl⟩ | ⟨-, -, rfl⟩⟩ :=
      receiveQueue_cases hstep
    · refine forall_set ?_ ?_
      · intro j g hg hnone
        have hempty := (h j g hg hnone).2
        rw [hq] at hempty
        cases hempty
      · intro hnone
        cases hnone
    · refine forall_set h ?_
      intro _
      exact ⟨((hE.alive ha).2).mp hs, hq⟩
    · refine forall_set h ?_
      intro hnone
      cases hnone
  | receiveWake j =>
    obtain ⟨f, top, -, -, -, ⟨sender, senders, -, rfl⟩ | ⟨-, rfl⟩⟩ := receiveWake_cases hstep
    · refine forall_set h ?_
      intro hnone
      cases hnone
    · refine forall_set h ?_
      intro hnone
      cases hnone
  | copySender i =>
    obtain ⟨hi, rfl⟩ := copySender_cases hstep
    intro j f hf hnone
    exact absurd hnone (hlive hi j f hf)
  | dropSender i =>
    obtain ⟨hi, rfl⟩ := dropSender_cases hstep
    intro j f hf hnone
    exact absurd hnone (hlive hi j f hf)
  | dropReceiver =>
    obtain ⟨-, rfl⟩ := dropReceiver_cases hstep
    exact h

/-- What holds in every state of the channel. -/
structure Inv (c : Channel V) : Prop where
  ends : Ends c
  logged : Logged c
  finished : Finished c

theorem inv_new : Inv (new : Channel V) := by
  refine ⟨ends_new, logged_new, ?_⟩
  intro j f hf
  cases hf

theorem step_inv (h : Inv c) (hstep : c.step size a = some c') : Inv c' :=
  ⟨step_ends h.ends hstep, step_logged h.logged hstep, step_finished h.ends h.finished hstep⟩

theorem run_inv (hrun : run (step size) new as = some c) : Inv c :=
  run_invariant (fun _ _ _ h hs => step_inv h hs) inv_new hrun

/-- In every interleaving of the sections of any number of polls, copies and drops: the queue holds at
most `size` values; the values taken are a front part of the values pushed, and the rest is the queue;
a `send` that returned success pushed its value once, and one that returned an error returned its own
value and pushed nothing; a `receive` that returned a value took that value once; and if a `receive`
returned `std::nullopt` then every `Sender` is gone and every value pushed was taken. -/
theorem channel_is_bounded_fifo (hrun : run (step size) new as = some c) :
    c.shared.queue.length ≤ size ∧
    c.pushed.map Prod.snd = c.taken.map Prod.snd ++ c.shared.queue ∧
    (∀ (k : ℕ) (f : SendFuture V), c.sends[k]? = some f →
      (f.status = .ready (.ok ()) → entries c.pushed k = [f.value]) ∧
      (∀ v, f.status = .ready (.error v) → v = f.value ∧ entries c.pushed k = [])) ∧
    (∀ (j : ℕ) (f : ReceiveFuture V), c.receives[j]? = some f →
      (∀ v, f.status = .ready (some v) → entries c.taken j = [v]) ∧
      (f.status = .ready none →
        c.liveSenders = 0 ∧ c.taken.map Prod.snd = c.pushed.map Prod.snd)) := by
  have hI := run_inv hrun
  have hfifo := run_fifo hrun
  have horder : c.pushed.map Prod.snd = c.taken.map Prod.snd ++ c.shared.queue := hfifo.order
  refine ⟨hfifo.bound, horder, ?_, ?_⟩
  · intro k f hf
    have hentries := hI.logged.sends.get hf
    constructor
    · intro hok
      simpa [SendFuture.pushed, hok] using hentries
    · intro v herror
      refine ⟨hI.logged.error k f hf v herror, ?_⟩
      simpa [SendFuture.pushed, herror] using hentries
  · intro j f hf
    have hentries := hI.logged.receives.get hf
    constructor
    · intro v hsome
      simpa [ReceiveFuture.taken, hsome] using hentries
    · intro hnone
      obtain ⟨hzero, hempty⟩ := hI.finished j f hf hnone
      refine ⟨hzero, ?_⟩
      rw [horder, hempty, List.append_nil]

/-- A value is sent and received, the `Sender` goes, and the next `receive` finds the end. -/
def closingRun : List (Action ℕ) :=
  [.send 0 7, .sendTest 0, .sendQueue 0, .receive, .receiveQueue 0, .receiveWake 0, .dropSender 0,
    .receive, .receiveQueue 1]

theorem channel_is_bounded_fifo_run :
    ∃ c, run (step 1) new closingRun = some c ∧ c.receives[1]? = some ⟨.ready none, 0⟩ ∧
      c.liveSenders = 0 ∧ c.taken.map Prod.snd = c.pushed.map Prod.snd := by
  obtain ⟨c, hrun, hf⟩ : ∃ c, run (step 1) new closingRun = some c ∧
      c.receives[1]? = some ⟨.ready none, 0⟩ :=
    exists_run (by decide)
  obtain ⟨-, -, -, hreceives⟩ := channel_is_bounded_fifo hrun
  exact ⟨c, hrun, hf, (hreceives 1 _ hf).2 rfl⟩

end Xyco.Sync.Mpsc.Channel
