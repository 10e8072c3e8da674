import Xyco.Sync.OneshotSpec
import Xyco.Sync.Proofs.OneshotStepProofs

/-!
# Proofs: who waits in the oneshot channel

While a `receive` waits, it is the one that `receiver_` points to, and every `send` under way is
still to read `receiver_`. A run that meets `NotMissed` keeps this.
-/

namespace Xyco.Sync.Oneshot

open Machine Table

variable {V : Type*} {c c' : Channel V} {a : Action V}

/-- The `send` has stored its value. -/
def SendStatus.hasStored : SendStatus V → Bool
  | .stored | .registered | .ready (.ok _) => true
  | _ => false

theorem ReceiveFuture.not_waiting {f : ReceiveFuture V} (h : f.status.isPending = false) :
    ¬ f.Waiting := by
  rintro ⟨hpending, -⟩
  rw [h] at hpending
  cases hpending

namespace Channel

structure Woken (c : Channel V) : Prop where
  stored : c.shared.value.hasValue = true → ∃ f ∈ c.sends, f.status.hasStored = true
  waiting : ∀ (j : ℕ) (f : ReceiveFuture V), c.receives[j]? = some f → f.Waiting →
    c.shared.receiver = some j ∧ c.shared.state ≠ .senderClosed ∧
      ∀ g ∈ c.sends, g.status.looked = false

theorem woken_new : Woken (new : Channel V) := by
  constructor
  · intro h
    cases h
  · intro j f hf
    cases hf

/-- Nobody waits once a `send` has read `receiver_`. -/
theorem Woken.none_waiting (h : Woken c) {g : SendFuture V} (hg : g ∈ c.sends)
    (hlooked : g.status.looked = true) (j : ℕ) (f : ReceiveFuture V)
    (hf : c.receives[j]? = some f) : ¬ f.Waiting := by
  intro hw
  have := (h.waiting j f hf hw).2.2 g hg
  rw [hlooked] at this
  cases this

/-- A step after which nobody waits who did not wait before, and which leaves the shared fields and
the `send`s as they were, as far as a future that waits depends on them. -/
theorem Woken.congr (h : Woken c)
    (hvalue : c'.shared.value.hasValue = true → c.shared.value.hasValue = true)
    (hsends : c'.sends = c.sends) (hreceiver : c'.shared.receiver = c.shared.receiver)
    (hstate : c.shared.state ≠ .senderClosed → c'.shared.state ≠ .senderClosed)
    (hwaiting : ∀ (j : ℕ) (f : ReceiveFuture V), c'.receives[j]? = some f → f.Waiting →
      c.receives[j]? = some f) : Woken c' := by
  constructor
  · intro hv
    rw [hsends]
    exact h.stored (hvalue hv)
  · intro j f hf hw
    obtain ⟨hrec, hst, hlook⟩ := h.waiting j f (hwaiting j f hf hw) hw
    rw [hreceiver, hsends]
    exact ⟨hrec, hstate hst, hlook⟩

/-- A step of a `receive` at whose end it does not wait. -/
theorem Woken.receive (h : Woken c) {j : ℕ} {b : ReceiveFuture V}
    (hb : b.status.isPending = false)
    (hvalue : c'.shared.value.hasValue = true → c.shared.value.hasValue = true)
    (hsends : c'.sends = c.sends) (hreceiver : c'.shared.receiver = c.shared.receiver)
    (hstate : c.shared.state ≠ .senderClosed → c'.shared.state ≠ .senderClosed)
    (hreceives : c'.receives = c.receives.set j b) : Woken c' := by
  refine h.congr hvalue hsends hreceiver hstate ?_
  intro i f hf hw
  rw [hreceives] at hf
  exact forall_set (P := fun i x => ReceiveFuture.Waiting x → c.receives[i]? = some x)
    (fun _ _ hx _ => hx) (fun hw => absurd hw (ReceiveFuture.not_waiting hb)) i f hf hw

/-- A step of a `send` before it reads `receiver_`. -/
theorem Woken.send (h : Woken c) {k : ℕ} {f b : SendFuture V} (hk : c.sends[k]? = some f)
    (hf : f.status.hasStored = false) (hb : b.status.looked = false)
    (hvalue : c'.shared.value.hasValue = true → b.status.hasStored = true ∨
      c.shared.value.hasValue = true)
    (hsends : c'.sends = c.sends.set k b) (hreceiver : c'.shared.receiver = c.shared.receiver)
    (hstate : c'.shared.state = c.shared.state) (hreceives : c'.receives = c.receives) :
    Woken c' := by
  constructor
  · intro hv
    rw [hsends]
    rcases hvalue hv with hb | hv
    · exact ⟨b, List.mem_of_getElem? (get_set_self hk b), hb⟩
    · refine exists_mem_set hk ?_ (h.stored hv)
      intro hstored
      rw [hf] at hstored
      cases hstored
  · intro j g hg hw
    rw [hreceives] at hg
    obtain ⟨hrec, hst, hlook⟩ := h.waiting j g hg hw
    rw [hreceiver, hstate, hsends]
    exact ⟨hrec, hst, forall_mem_set hlook hb⟩

/-- The future that `receiver_` points to is registered, so nobody waits. -/
theorem Woken.wake (h : Woken c) {j : ℕ} {f : ReceiveFuture V}
    (hf : (wakeReceive c.shared.receiver c.receives)[j]? = some f) : ¬ f.Waiting := by
  intro hw
  cases hrec : c.shared.receiver with
  | none =>
    rw [hrec] at hf
    have := (h.waiting j f hf hw).1
    rw [hrec] at this
    cases this
  | some i =>
    rw [hrec] at hf
    simp only [wakeReceive, List.getElem?_modify] at hf
    obtain ⟨g, hg, rfl⟩ := Option.map_eq_some_iff.mp hf
    by_cases hij : i = j
    · rw [if_pos hij] at hw
      exact Nat.succ_ne_zero _ hw.2
    · rw [if_neg hij] at hw
      have := (h.waiting j g hg hw).1
      rw [hrec] at this
      exact hij (Option.some.inj this)

theorem step_woken (h : Woken c) (hG : c.NotMissed a) (hstep : c.step a = some c') : Woken c' := by
  cases a with
  | send owner value =>
    obtain ⟨shared, -, rfl⟩ := send_cases hstep
    constructor
    · intro hv
      obtain ⟨f, hf, hstored⟩ := h.stored hv
      exact ⟨f, List.mem_append_left _ hf, hstored⟩
    · intro j f hf hw
      obtain ⟨hrec, hst, hlook⟩ := h.waiting j f hf hw
      exact ⟨hrec, hst, forall_mem_concat hlook rfl⟩
  | sendTest k =>
    obtain ⟨f, shared, hk, -, hstatus, ⟨-, rfl⟩ | ⟨-, -, rfl⟩⟩ := sendTest_cases hstep
    · exact h.send hk (by rw [hstatus]; rfl) rfl Or.inr rfl rfl rfl rfl
    · exact h.send hk (by rw [hstatus]; rfl) rfl Or.inr rfl rfl rfl rfl
  | sendStore k =>
    obtain ⟨f, hk, -, hstatus, rfl⟩ := sendStore_cases hstep
    exact h.send hk (by rw [hstatus]; rfl) rfl (fun _ => Or.inl rfl) rfl rfl rfl rfl
  | sendRegister k =>
    obtain ⟨f, hk, -, -, rfl⟩ := sendRegister_cases hstep
    constructor
    · intro hv
      exact exists_mem_set hk (fun _ => rfl) (h.stored hv)
    · intro j g hg hw
      exact absurd hw (h.wake hg)
  | sendClose k =>
    obtain ⟨f, shared, hk, -, hstatus, rfl⟩ := sendClose_cases hstep
    constructor
    · intro hv
      rw [closeSender_value] at hv
      exact exists_mem_set hk (fun _ => rfl) (h.stored hv)
    · intro j g hg hw
      rw [closeSender_receives] at hg
      have hlooked : f.status.looked = true := by rw [hstatus]; rfl
      exact absurd hw (h.none_waiting (List.mem_of_getElem? hk) hlooked j g hg)
  | receive owner =>
    obtain ⟨shared, -, rfl⟩ := receive_cases hstep
    refine h.congr id rfl rfl id ?_
    exact forall_concat (P := fun i x => ReceiveFuture.Waiting x → c.receives[i]? = some x)
      (fun _ _ hx _ => hx) (fun hw => absurd hw (ReceiveFuture.not_waiting rfl))
  | receiveValue j =>
    obtain ⟨f, shared, -, -, -, hcases⟩ := receiveValue_cases hstep
    rcases hcases with ⟨-, -, rfl⟩ | ⟨value, -, hv, rfl⟩ | ⟨result, rfl⟩
    · exact h.receive rfl id rfl rfl id rfl
    · exact h.receive rfl (fun _ => by rw [hv]; rfl) rfl rfl id rfl
    · exact h.receive rfl id rfl rfl id rfl
  | receiveState j =>
    obtain ⟨f, -, -, rfl⟩ := receiveState_cases hstep
    refine h.receive ?_ id rfl rfl id rfl
    show ReceiveStatus.isPending (if _ then _ else _) = false
    split <;> rfl
  | receiveStore j =>
    obtain ⟨f, -, -, rfl⟩ := receiveStore_cases hstep
    obtain ⟨hopen, hlook, hnone⟩ := hG
    constructor
    · exact h.stored
    · apply forall_set (P := fun i x => ReceiveFuture.Waiting x → some j = some i ∧
        c.shared.state ≠ .senderClosed ∧ ∀ g ∈ c.sends, g.status.looked = false)
      · intro i g hg hw
        exact absurd hw (hnone g (List.mem_of_getElem? hg))
      · intro _
        exact ⟨rfl, hopen, hlook⟩
  | receiveClose j =>
    obtain ⟨f, result, -, -, rfl⟩ := receiveClose_cases hstep
    exact h.receive rfl (by simp) (by simp) (by simp) closeReceiver_state rfl
  | moveSender i =>
    obtain ⟨senders, -, rfl⟩ := moveSender_cases hstep
    exact h.congr id rfl rfl id fun _ _ hf _ => hf
  | moveReceiver i =>
    obtain ⟨receivers, -, rfl⟩ := moveReceiver_cases hstep
    exact h.congr id rfl rfl id fun _ _ hf _ => hf
  | assignSender i j =>
    obtain ⟨senders, -, rfl⟩ := assignSender_cases hstep
    exact h.congr id rfl rfl id fun _ _ hf _ => hf
  | assignReceiver i j =>
    obtain ⟨receivers, -, rfl⟩ := assignReceiver_cases hstep
    exact h.congr id rfl rfl id fun _ _ hf _ => hf
  | dropSender i =>
    obtain ⟨shared, -, rfl⟩ := dropSender_cases hstep
    by_cases hheld : c.senders[i]? = some (.live true)
    · constructor
      · intro hv
        rw [closeSender_value] at hv
        rw [closeSender_sends]
        exact h.stored hv
      · intro j f hf hw
        rw [closeSender_receives] at hf
        exact absurd hw (hG hheld f (List.mem_of_getElem? hf))
    · rw [closeSender_of_null hheld]
      exact h.congr id rfl rfl id fun _ _ hf _ => hf
  | dropReceiver i =>
    obtain ⟨shared, -, rfl⟩ := dropReceiver_cases hstep
    refine h.congr (by simp) (by simp) (by simp) closeReceiver_state ?_
    intro j f hf _
    rwa [closeReceiver_receives] at hf

/-- In every order of the accesses in which no `receive` stores itself too late and no `Sender` is
destroyed while one waits: when no call and no poll is in progress, a `receive` that waits has
nothing to receive. -/
theorem no_lost_wakeup {as : List (Action V)} (hrun : run step new as = some c)
    (hG : Along step NotMissed new as) (hquiet : c.quiescent = true) :
    ∀ f ∈ c.receives, f.Waiting → c.Empty := by
  have h : Woken c := run_invariant_along (fun _ _ _ h hG hs => step_woken h hG hs) woken_new hG hrun
  intro f hf hw
  obtain ⟨j, hj⟩ := List.mem_iff_getElem?.mp hf
  obtain ⟨-, hstate, hlook⟩ := h.waiting j f hj hw
  refine ⟨?_, hstate⟩
  by_contra hv
  obtain ⟨g, hg, hstored⟩ := h.stored (by simpa using hv)
  have hrunning : g.status.running = false := by
    have hall := List.all_eq_true.mp (Bool.and_eq_true_iff.mp hquiet).1 g hg
    simpa using hall
  have hlooked := hlook g hg
  revert hstored hrunning hlooked
  -- a `send` that has stored its value and is not under way has returned
  cases g.status with
  | created => simp [SendStatus.hasStored]
  | tested => simp [SendStatus.running]
  | stored => simp [SendStatus.running]
  | registered => simp [SendStatus.running]
  | ready result =>
    cases result with
    | error v => simp [SendStatus.hasStored]
    | ok u => simp [SendStatus.looked]

/-- A `receive` that suspends before the `send` is called. -/
def earlyReceiveRun : List (Action ℕ) :=
  [.receive 0, .receiveValue 0, .receiveState 0, .receiveStore 0, .send 0 10]

theorem no_lost_wakeup_run :
    ∃ c, run step new earlyReceiveRun = some c ∧ c.receives = [⟨0, .pending, 0⟩] ∧ c.Empty := by
  have hG : Along step NotMissed new earlyReceiveRun := by decide
  obtain ⟨c, hrun, hquiet, hreceives⟩ : ∃ c, run step new earlyReceiveRun = some c ∧
      c.quiescent = true ∧ c.receives = [⟨0, .pending, 0⟩] :=
    exists_run (by decide)
  refine ⟨c, hrun, hreceives, ?_⟩
  exact no_lost_wakeup hrun hG hquiet ⟨0, .pending, 0⟩ (by rw [hreceives]; simp) ⟨rfl, rfl⟩

/-- The `receive` has found neither a value nor a closed `Sender` when `send` runs from its store to
its `close`, and then stores itself. Or it waits, and the `Sender` is destroyed. -/
theorem receive_lost_by_race :
    (∃ c, run step (new : Channel ℕ) [.send 0 10, .receive 0, .sendTest 0, .receiveValue 0,
        .receiveState 0, .sendStore 0, .sendRegister 0, .sendClose 0, .receiveStore 0] = some c ∧
      c.quiescent = true ∧ c.receives = [⟨0, .pending, 0⟩] ∧ ¬ c.Empty) ∧
    ∃ c, run step (new : Channel ℕ) [.receive 0, .receiveValue 0, .receiveState 0,
        .receiveStore 0, .dropSender 0] = some c ∧
      c.quiescent = true ∧ c.receives = [⟨0, .pending, 0⟩] ∧ ¬ c.Empty :=
  ⟨exists_run (by decide), exists_run (by decide)⟩

end Channel

end Xyco.Sync.Oneshot
