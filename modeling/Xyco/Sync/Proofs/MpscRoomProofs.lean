import Xyco.Sync.Proofs.MpscQueueProofs

/-!
# Proofs: when a `send` waits while there is room

`Parked` describes the futures in `senders_`. `Room` is the accounting: as long as someone waits or is
about to, every free place of the queue is spoken for by a `send` on its way or by a `receive` that is
about to wake one.
-/

namespace Xyco.Sync.Mpsc

open Machine Table

variable {V : Type*} {size : ℕ}

/-- On its way to the queue: registered, or past the test of `state_`. -/
def SendFuture.coming (f : SendFuture V) : Bool :=
  match f.status with
  | .checked => true
  | .pending => 0 < f.wakes
  | _ => false

namespace Channel

variable {c c' : Channel V} {a : Action V} {as : List (Action V)}

theorem scheduledStep_cases (h : c.scheduledStep size a = some c') :
    c.scheduled a = true ∧ c.step size a = some c' := by
  unfold scheduledStep at h
  split at h
  · rename_i hs
    exact ⟨hs, h⟩
  · cases h

theorem wakes_of_scheduled {k : ℕ} {f : SendFuture V} (hf : c.sends[k]? = some f)
    (h : c.scheduled (.sendTest k) = true) : ¬ f.Waiting := by
  rintro ⟨hpending, hzero⟩
  obtain ⟨owner, value, status, wakes⟩ := f
  cases status <;> simp_all [scheduled, SendStatus.isPending]

/-! ## The futures in `senders_` -/

/-- A future is in `senders_` at most once, and as long as it waits there it is neither polled nor
registered. -/
structure Parked (c : Channel V) : Prop where
  nodup : c.shared.senders.Nodup
  waiting : ∀ k ∈ c.shared.senders, ∃ f, c.sends[k]? = some f ∧ f.Waiting
  polling : ∀ (k : ℕ) (f : SendFuture V), c.sends[k]? = some f → f.status.polling = true → f.wakes = 0

theorem parked_new : Parked (new : Channel V) := by
  constructor
  · exact List.nodup_nil
  · intro k hk
    cases hk
  · intro k f hf
    cases hf

theorem Parked.congr (h : Parked c) (hsenders : c'.shared.senders = c.shared.senders)
    (hsends : c'.sends = c.sends) : Parked c' := by
  constructor
  · rw [hsenders]
    exact h.nodup
  · rw [hsenders, hsends]
    exact h.waiting
  · rw [hsends]
    exact h.polling

theorem Parked.not_mem (h : Parked c) {k : ℕ} {f : SendFuture V} (hf : c.sends[k]? = some f)
    (hw : ¬ f.Waiting) : k ∉ c.shared.senders := by
  intro hk
  obtain ⟨g, hg, hwait⟩ := h.waiting k hk
  rw [hf] at hg
  obtain rfl := Option.some.inj hg
  exact hw hwait

/-- A section that replaces a future outside `senders_`. -/
theorem Parked.set (h : Parked c) {k : ℕ} {f g : SendFuture V} (hf : c.sends[k]? = some f)
    (hw : ¬ f.Waiting) (hg : g.status.polling = true → g.wakes = 0)
    (hsenders : c'.shared.senders = c.shared.senders) (hsends : c'.sends = c.sends.set k g) :
    Parked c' := by
  have hk := h.not_mem hf hw
  constructor
  · rw [hsenders]
    exact h.nodup
  · intro i hi
    rw [hsenders] at hi
    rw [hsends, get_set hf, if_neg (by rintro rfl; exact hk hi)]
    exact h.waiting i hi
  · rw [hsends]
    exact forall_set h.polling hg

theorem not_waiting_of_polling {f : SendFuture V} (h : f.status.polling = true) : ¬ f.Waiting := by
  rintro ⟨hpending, -⟩
  revert h hpending
  cases f.status <;> simp [SendStatus.polling, SendStatus.isPending]

/-- A future that is being polled is put into `senders_`. -/
theorem Parked.park (h : Parked c) {k : ℕ} {f g : SendFuture V} (hf : c.sends[k]? = some f)
    (hpolling : f.status.polling = true) (hg : g.Waiting)
    (hsenders : c'.shared.senders = c.shared.senders ++ [k]) (hsends : c'.sends = c.sends.set k g) :
    Parked c' := by
  have hk := h.not_mem hf (not_waiting_of_polling hpolling)
  constructor
  · rw [hsenders, List.nodup_append]
    refine ⟨h.nodup, by simp, ?_⟩
    intro i hi i' hi' heq
    obtain rfl := List.mem_singleton.mp hi'
    exact hk (heq ▸ hi)
  · intro i hi
    rw [hsenders] at hi
    rw [hsends, get_set hf]
    rcases List.mem_append.mp hi with hmem | hmem
    · rw [if_neg (by rintro rfl; exact hk hmem)]
      exact h.waiting i hmem
    · rw [if_pos (List.mem_singleton.mp hmem)]
      exact ⟨g, rfl, hg⟩
  · rw [hsends]
    exact forall_set h.polling fun hpoll => absurd hg (not_waiting_of_polling hpoll)

/-- The first future of `senders_` is taken out and registered. -/
theorem Parked.wake (h : Parked c) {sender : ℕ} {senders : List ℕ}
    (hs : c.shared.senders = sender :: senders) (hsenders : c'.shared.senders = senders)
    (hsends : c'.sends = wakeSend (some sender) c.sends) : Parked c' := by
  have hnodup := h.nodup
  rw [hs, List.nodup_cons] at hnodup
  obtain ⟨g, hg, hpending, -⟩ := h.waiting sender (by rw [hs]; exact List.mem_cons_self)
  rw [wakeSend, modify_eq_set hg] at hsends
  constructor
  · rw [hsenders]
    exact hnodup.2
  · intro k hk
    rw [hsenders] at hk
    rw [hsends, get_set hg, if_neg (by rintro rfl; exact hnodup.1 hk)]
    exact h.waiting k (by rw [hs]; exact List.mem_cons_of_mem _ hk)
  · rw [hsends]
    refine forall_set h.polling ?_
    intro hpolling
    exact absurd ⟨hpending, rfl⟩ (not_waiting_of_polling (f := { g with wakes := 0 }) hpolling)

theorem step_parked (h : Parked c) (hsched : c.scheduled a = true) (hstep : c.step size a = some c') :
    Parked c' := by
  cases a with
  | send owner value =>
    obtain ⟨-, rfl⟩ := send_cases hstep
    constructor
    · exact h.nodup
    · intro k hk
      obtain ⟨f, hf, hwait⟩ := h.waiting k hk
      obtain ⟨hlt, -⟩ := List.getElem?_eq_some_iff.mp hf
      exact ⟨f, by rw [get_concat, if_neg (by omega)]; exact hf, hwait⟩
    · refine forall_concat h.polling ?_
      intro _
      rfl
  | receive =>
    obtain ⟨-, rfl⟩ := receive_cases hstep
    exact h.congr rfl rfl
  | sendTest k =>
    obtain ⟨f, hf, -, -, rfl⟩ := sendTest_cases hstep
    exact h.set hf (wakes_of_scheduled hf hsched) (fun _ => rfl) rfl rfl
  | sendQueue k =>
    obtain ⟨f, hf, hchecked, -, ⟨-, rfl⟩ | ⟨-, rfl⟩⟩ := sendQueue_cases hstep
    · have hpolling : f.status.polling = true := by rw [hchecked]; rfl
      refine h.set hf (not_waiting_of_polling hpolling) ?_ rfl rfl
      intro hready
      cases hready
    · have hpolling : f.status.polling = true := by rw [hchecked]; rfl
      refine h.set hf (not_waiting_of_polling hpolling) ?_ rfl rfl
      intro _
      exact h.polling k f hf hpolling
  | sendPark k =>
    obtain ⟨f, hf, hfull, -, rfl⟩ := sendPark_cases hstep
    have hpolling : f.status.polling = true := by rw [hfull]; rfl
    have hwait : SendFuture.Waiting { f with status := .pending } :=
      ⟨rfl, h.polling k f hf hpolling⟩
    exact h.park hf hpolling hwait rfl rfl
  | receiveQueue j =>
    obtain ⟨f, -, -, -, ⟨top, queue, -, rfl⟩ | ⟨-, -, rfl⟩ | ⟨-, -, rfl⟩⟩ := receiveQueue_cases hstep
    · exact h.congr rfl rfl
    · exact h.congr rfl rfl
    · exact h.congr rfl rfl
  | receiveWake j =>
    obtain ⟨f, top, -, -, -, ⟨sender, senders, hs, rfl⟩ | ⟨-, rfl⟩⟩ := receiveWake_cases hstep
    · exact h.wake hs rfl rfl
    · exact h.congr rfl rfl
  | copySender i =>
    obtain ⟨-, rfl⟩ := copySender_cases hstep
    exact h.congr rfl rfl
  | dropSender i =>
    obtain ⟨-, rfl⟩ := dropSender_cases hstep
    exact h.congr rfl rfl
  | dropReceiver =>
    obtain ⟨-, rfl⟩ := dropReceiver_cases hstep
    exact h.congr rfl rfl

/-! ## The accounting -/

/-- A `send` waits in `senders_`, or is about to. -/
def Hungry (c : Channel V) : Prop := c.shared.senders ≠ [] ∨ ∃ f ∈ c.sends, f.status = .full

/-- The places of the queue that are taken or spoken for. -/
def credit (c : Channel V) : ℕ :=
  c.shared.queue.length + c.sends.countP SendFuture.coming +
    c.receives.countP fun f => f.status.polling

/-- While a `send` waits, every place of the queue is taken or spoken for. -/
def Room (size : ℕ) (c : Channel V) : Prop :=
  c.receiverAlive = true → c.Hungry → size ≤ c.credit

theorem Room.mono (h : Room size c) (halive : c'.receiverAlive = true → c.receiverAlive = true)
    (hhungry : c'.Hungry → c.Hungry) (hcredit : c.credit ≤ c'.credit) : Room size c' := by
  intro ha hh
  exact Nat.le_trans (h (halive ha) (hhungry hh)) hcredit

/-- Replacing a future by one that is not `full` makes no `send` wait. -/
theorem Hungry.of_set {k : ℕ} {g : SendFuture V} (hg : g.status ≠ .full)
    (hsenders : c'.shared.senders = c.shared.senders) (hsends : c'.sends = c.sends.set k g)
    (h : c'.Hungry) : c.Hungry := by
  rcases h with hs | ⟨f, hf, hfull⟩
  · rw [hsenders] at hs
    exact Or.inl hs
  · rw [hsends] at hf
    rcases List.mem_or_eq_of_mem_set hf with hf | rfl
    · exact Or.inr ⟨f, hf, hfull⟩
    · exact absurd hfull hg

theorem countP_wakeReceive (future : Option ℕ) (receives : List (ReceiveFuture V)) :
    (wakeReceive future receives).countP (fun f => f.status.polling) =
      receives.countP fun f => f.status.polling := by
  cases future with
  | none => rfl
  | some j =>
    show (receives.modify j _).countP _ = _
    cases hj : receives[j]? with
    | none => rw [List.modify_eq_self (List.getElem?_eq_none_iff.mp hj)]
    | some f =>
      rw [modify_eq_set hj]
      have := countP_set hj (fun f => f.status.polling) { f with wakes := f.wakes + 1 }
      simp only at this
      omega

theorem polling_of_idle {status : ReceiveStatus V} (h : status.idle = true) :
    status.polling = false := by
  cases status <;> simp_all [ReceiveStatus.idle, ReceiveStatus.polling]

theorem coming_of_pending {f : SendFuture V} (h : f.status.isPending = true) :
    f.coming = decide (0 < f.wakes) := by
  unfold SendFuture.coming
  revert h
  cases f.status <;> simp [SendStatus.isPending]

/-- A poll of `receive` begins: the number of the futures that hold a value changes by that of the
new state. -/
theorem countP_polling_set {j : ℕ} {f g : ReceiveFuture V} (hf : c.receives[j]? = some f)
    (hidle : f.status.idle = true) :
    (c.receives.set j g).countP (fun f => f.status.polling) =
      c.receives.countP (fun f => f.status.polling) + if g.status.polling = true then 1 else 0 := by
  have hcount := countP_set hf (fun f => f.status.polling) g
  rw [polling_of_idle hidle, if_neg (by simp)] at hcount
  exact hcount

/-- A parked `send` is among those that come once it is woken. -/
theorem countP_coming_wake {k : ℕ} {f : SendFuture V} (hf : c.sends[k]? = some f)
    (hpending : f.status.isPending = true) (hzero : f.wakes = 0) :
    (wakeSend (some k) c.sends).countP SendFuture.coming =
      c.sends.countP SendFuture.coming + 1 := by
  have hcount := countP_set hf SendFuture.coming { f with wakes := f.wakes + 1 }
  have hbefore : f.coming = false := by
    rw [coming_of_pending hpending, hzero]
    rfl
  have hafter : SendFuture.coming { f with wakes := f.wakes + 1 } = true := by
    rw [coming_of_pending (f := { f with wakes := f.wakes + 1 }) hpending]
    simp
  rw [hbefore, hafter, if_neg (by simp), if_pos rfl] at hcount
  rw [wakeSend, modify_eq_set hf]
  exact hcount

theorem step_room (hE : Ends c) (hP : Parked c) (h : Room size c) (hwake : c.WakeSeen a)
    (hstep : c.step size a = some c') : Room size c' := by
  cases a with
  | send owner value =>
    obtain ⟨-, rfl⟩ := send_cases hstep
    refine h.mono id ?_ ?_
    · rintro (hs | ⟨f, hf, hfull⟩)
      · exact Or.inl hs
      · rcases List.mem_append.mp hf with hf | hf
        · exact Or.inr ⟨f, hf, hfull⟩
        · obtain rfl := List.mem_singleton.mp hf
          cases hfull
    · simp [credit, SendFuture.coming]
  | receive =>
    obtain ⟨-, rfl⟩ := receive_cases hstep
    exact h.mono id id (by simp [credit])
  | sendTest k =>
    obtain ⟨f, hf, -, -, rfl⟩ := sendTest_cases hstep
    intro ha hh
    have hopen := (hE.alive ha).1
    refine h.mono id (Hungry.of_set ?_ rfl rfl) ?_ ha hh
    · simp [hopen]
    · have hcount := countP_set hf SendFuture.coming { f with status := .checked, wakes := 0 }
      have hcoming : SendFuture.coming { f with status := .checked, wakes := 0 } = true := rfl
      rw [hcoming, if_pos rfl] at hcount
      have hle : (if f.coming = true then 1 else 0) ≤ 1 := by split <;> omega
      simp only [credit, if_neg hopen]
      omega
  | sendQueue k =>
    obtain ⟨f, hf, hchecked, -, ⟨-, rfl⟩ | ⟨hfull, rfl⟩⟩ := sendQueue_cases hstep
    · refine h.mono id (Hungry.of_set (by simp) rfl rfl) ?_
      have hcount := countP_set hf SendFuture.coming { f with status := .ready (.ok ()) }
      have hle : (if f.coming = true then 1 else 0) ≤ 1 := by split <;> omega
      simp only [credit, countP_wakeReceive, List.length_append, List.length_singleton]
      omega
    · intro _ _
      simp only [credit]
      omega
  | sendPark k =>
    obtain ⟨f, hf, hfull, -, rfl⟩ := sendPark_cases hstep
    have hmem : f ∈ c.sends := List.mem_of_getElem? hf
    refine h.mono id (fun _ => Or.inr ⟨f, hmem, hfull⟩) ?_
    have hcount := countP_set hf SendFuture.coming { f with status := .pending }
    have hcoming : f.coming = false := by simp [SendFuture.coming, hfull]
    rw [hcoming, if_neg (by simp)] at hcount
    simp only [credit]
    omega
  | receiveQueue j =>
    obtain ⟨f, hf, hidle, -, ⟨top, queue, hq, rfl⟩ | ⟨-, -, rfl⟩ | ⟨-, -, rfl⟩⟩ :=
      receiveQueue_cases hstep
    · refine h.mono id id ?_
      have hpopped : ReceiveStatus.polling (.popped top) = true := rfl
      simp only [credit, countP_polling_set hf hidle, hpopped, if_pos, hq, List.length_cons]
      omega
    · refine h.mono id id ?_
      simp only [credit, countP_polling_set hf hidle]
      omega
    · refine h.mono id id ?_
      simp only [credit, countP_polling_set hf hidle]
      omega
  | receiveWake j =>
    obtain ⟨f, top, hf, hpopped, -, ⟨sender, senders, hs, rfl⟩ | ⟨hs, rfl⟩⟩ :=
      receiveWake_cases hstep
    · obtain ⟨g, hg, hpending, hzero⟩ := hP.waiting sender (by rw [hs]; exact List.mem_cons_self)
      refine h.mono id (fun _ => Or.inl (by rw [hs]; simp)) ?_
      have hcount := countP_set hf (fun f => f.status.polling) { f with status := .ready (some top) }
      have hle : (if f.status.polling = true then 1 else 0) ≤ 1 := by split <;> omega
      simp only [credit, countP_coming_wake hg hpending hzero]
      omega
    · intro _ hh
      rcases hh with hne | ⟨g, hg, hfull⟩
      · exact absurd hs hne
      · exact absurd hfull (hwake hs g hg)
  | copySender i =>
    obtain ⟨-, rfl⟩ := copySender_cases hstep
    exact h
  | dropSender i =>
    obtain ⟨-, rfl⟩ := dropSender_cases hstep
    exact h
  | dropReceiver =>
    obtain ⟨-, rfl⟩ := dropReceiver_cases hstep
    intro ha
    cases ha

/-! ## The runs -/

theorem credit_of_quiescent (h : c.quiescent = true) :
    c.credit = c.shared.queue.length + c.registered := by
  simp only [quiescent, Bool.and_eq_true, List.all_eq_true] at h
  obtain ⟨hsends, hreceives⟩ := h
  have hcoming : c.sends.countP SendFuture.coming = c.registered := by
    apply List.countP_congr
    intro f hf
    have hpolling := hsends f hf
    unfold SendFuture.coming SendFuture.registered
    revert hpolling
    cases f.status <;> simp [SendStatus.polling, SendStatus.isPending]
  have hzero : c.receives.countP (fun f => f.status.polling) = 0 := by
    rw [List.countP_eq_zero]
    intro f hf
    simpa using hreceives f hf
  rw [credit, hcoming, hzero, Nat.add_zero]

/-- In every interleaving in which no `receive` misses a `send` that is about to park: when no poll is
in progress and a `send` waits in `senders_`, the queue is full, but for the places of the `send`s
that are scheduled. -/
theorem no_send_stranded (hrun : run (scheduledStep size) new as = some c)
    (hwake : Along (scheduledStep size) WakeSeen new as) (halive : c.receiverAlive = true)
    (hquiet : c.quiescent = true) (hsenders : c.shared.senders ≠ []) :
    size ≤ c.shared.queue.length + c.registered := by
  have hkeep : ∀ c a c', (Ends c ∧ Parked c ∧ Room size c) → WakeSeen c a →
      scheduledStep size c a = some c' → Ends c' ∧ Parked (V := V) c' ∧ Room size c' := by
    rintro c a c' ⟨hE, hP, hR⟩ hw hstep
    obtain ⟨hsched, hstep⟩ := scheduledStep_cases hstep
    exact ⟨step_ends hE hstep, step_parked hP hsched hstep, step_room hE hP hR hw hstep⟩
  have hnew : Room size (new : Channel V) := by
    rintro - (hs | ⟨f, hf, -⟩)
    · exact absurd rfl hs
    · cases hf
  obtain ⟨-, -, hroom⟩ := run_invariant_along hkeep ⟨ends_new, parked_new, hnew⟩ hwake hrun
  rw [← credit_of_quiescent hquiet]
  exact hroom halive (Or.inl hsenders)

/-- Three `send`s on a channel for one value, and a `receive` that wakes the first one that parked. -/
def crowdedRun : List (Action ℕ) :=
  [.send 0 10, .send 0 20, .send 0 30, .receive, .sendTest 0, .sendQueue 0, .sendTest 1, .sendQueue 1,
    .sendPark 1, .sendTest 2, .sendQueue 2, .sendPark 2, .receiveQueue 0, .receiveWake 0]

theorem no_send_stranded_run :
    ∃ c, run (scheduledStep 1) new crowdedRun = some c ∧ c.shared.senders = [2] ∧
      c.shared.queue = [] ∧ 1 ≤ c.shared.queue.length + c.registered := by
  have hwake : Along (scheduledStep 1) WakeSeen new crowdedRun := by decide
  obtain ⟨c, hrun, halive, hquiet, hsenders, hqueue⟩ : ∃ c, run (scheduledStep 1) new crowdedRun =
      some c ∧ c.receiverAlive = true ∧ c.quiescent = true ∧ c.shared.senders = [2] ∧
      c.shared.queue = [] :=
    exists_run (by decide)
  exact ⟨c, hrun, hsenders, hqueue,
    no_send_stranded hrun hwake halive hquiet (by rw [hsenders]; simp)⟩

/-- The lost wake-up: the second `send` finds the queue full, the `receive` takes the value and finds
no sender to wake, and then the `send` parks. -/
theorem send_stranded_by_race :
    ∃ c, run (scheduledStep 1) (new : Channel ℕ) [.send 0 10, .send 0 20, .receive, .sendTest 0,
        .sendQueue 0, .sendTest 1, .sendQueue 1, .receiveQueue 0, .receiveWake 0, .sendPark 1] =
        some c ∧
      c.receiverAlive = true ∧ c.quiescent = true ∧ c.shared.senders ≠ [] ∧
      ¬ 1 ≤ c.shared.queue.length + c.registered :=
  exists_run (by decide)

end Channel

end Xyco.Sync.Mpsc
