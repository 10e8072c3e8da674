import Xyco.Sync.Proofs.MpscPollProofs

/-!
# Proofs: who the mpsc channel wakes

Both promises about waking fail for some runs. For each, the runs for which it holds in every state
are exactly those whose steps meet its condition.
-/

namespace Xyco.Sync.Mpsc.Channel

open Machine Table

variable {V : Type*} {size : ℕ} {c c' : Channel V} {a : PollAction V}

/-! ## A `receive` is woken once -/

/-- The `receive` that `receiver_` points to. As long as nothing was pushed since it suspended it is
there to be woken; after that the next value pushed would register it once too often. -/
structure Pointed (c : Channel V) (f : ReceiveFuture V) : Prop where
  fresh : c.pushes = 0 → c.shared.queue = [] ∧ f.wakes = 0 ∧
    (f.status.isReady = false ∨ c.liveSenders = 0)
  stale : c.pushes ≠ 0 → f.status.isReady = true ∨ f.wakes = 1

/-- The invariant under `OnePush`. -/
structure Waking (c : Channel V) : Prop where
  ends : Ends c
  once : c.WokenOnce
  receiver : ∀ j, c.shared.receiver = some j → ∃ f, c.receives[j]? = some f ∧ Pointed c f

theorem waking_new : Waking (new : Channel V) := by
  refine ⟨ends_new, ?_, ?_⟩
  · intro f hf
    cases hf
  · intro j hj
    cases hj

theorem Pointed.congr {f : ReceiveFuture V} (h : Pointed c f) (hpushes : c'.pushes = c.pushes)
    (hqueue : c'.shared.queue = c.shared.queue) (hlive : c.liveSenders = 0 → c'.liveSenders = 0) :
    Pointed c' f := by
  constructor
  · intro hp
    rw [hqueue]
    obtain ⟨hq, hw, hor⟩ := h.fresh (hpushes ▸ hp)
    exact ⟨hq, hw, hor.imp_right hlive⟩
  · intro hp
    exact h.stale (hpushes ▸ hp)

/-- A step that leaves the `receive` futures and what `Pointed` reads alone. -/
theorem Waking.congr (h : Waking c) (hE : Ends c') (hreceives : c'.receives = c.receives)
    (hreceiver : c'.shared.receiver = c.shared.receiver) (hpushes : c'.pushes = c.pushes)
    (hqueue : c'.shared.queue = c.shared.queue) (hlive : c.liveSenders = 0 → c'.liveSenders = 0) :
    Waking c' := by
  refine ⟨hE, ?_, ?_⟩
  · intro f hf
    rw [hreceives] at hf
    exact h.once f hf
  · intro j hj
    rw [hreceiver] at hj
    obtain ⟨f, hf, hp⟩ := h.receiver j hj
    exact ⟨f, hreceives ▸ hf, hp.congr hpushes hqueue hlive⟩

theorem WokenOnce.set (h : c.WokenOnce) {j : ℕ} {status : ReceiveStatus V}
    (hreceives : c'.receives = c.receives.set j ⟨status, 0⟩) : c'.WokenOnce := by
  unfold WokenOnce
  rw [hreceives]
  exact forall_mem_set h ⟨Nat.zero_le 1, fun _ => rfl⟩

/-- A `receive` whose poll ends in `Ready`. -/
theorem Waking.ready (h : Waking c) {j : ℕ} {f : ReceiveFuture V} {result : Option V}
    (hf : c.receives[j]? = some f) (hE : Ends c')
    (hreceives : c'.receives = c.receives.set j ⟨.ready result, 0⟩)
    (hreceiver : c'.shared.receiver = c.shared.receiver) (hpushes : c'.pushes = c.pushes)
    (hlive : c'.liveSenders = c.liveSenders)
    (hqueue : c.pushes = 0 → c.shared.queue = [] → c'.shared.queue = [] ∧ c.liveSenders = 0) :
    Waking c' := by
  refine ⟨hE, WokenOnce.set h.once hreceives, ?_⟩
  · intro i hi
    rw [hreceiver] at hi
    obtain ⟨g, hg, hp⟩ := h.receiver i hi
    rw [hreceives, get_set hf]
    split
    · refine ⟨_, rfl, ?_, ?_⟩
      · intro h0
        rw [hpushes] at h0
        obtain ⟨hq, hzero⟩ := hqueue h0 (hp.fresh h0).1
        exact ⟨hq, rfl, Or.inr (hlive ▸ hzero)⟩
      · intro _
        exact Or.inl rfl
    · refine ⟨g, hg, ?_, ?_⟩
      · intro h0
        rw [hpushes] at h0
        obtain ⟨hq, hw, hor⟩ := hp.fresh h0
        exact ⟨(hqueue h0 hq).1, hw, hlive ▸ hor⟩
      · intro h0
        exact hp.stale (hpushes ▸ h0)

/-- A value pushed when the `receive` that waits, if one does, was not woken yet. -/
theorem Waking.push (h : Waking c) {i : ℕ} (hi : c.senderAlive[i]? = some true)
    (hone : c.shared.receiver ≠ none → c.pushes = 0) (hE : Ends c')
    (hreceives : c'.receives = wakeReceive c.shared.receiver c.receives)
    (hreceiver : c'.shared.receiver = c.shared.receiver) (hpushes : c'.pushes = c.pushes + 1) :
    Waking c' := by
  have hpos := liveSenders_pos hi
  cases hrec : c.shared.receiver with
  | none =>
    rw [hrec] at hreceives hreceiver
    refine ⟨hE, ?_, ?_⟩
    · intro f hf
      rw [hreceives] at hf
      exact h.once f hf
    · intro j hj
      rw [hreceiver] at hj
      cases hj
  | some j =>
    obtain ⟨g, hg, hp⟩ := h.receiver j hrec
    obtain ⟨-, hw, hor⟩ := hp.fresh (hone (by simp [hrec]))
    have hready : g.status.isReady = false := hor.resolve_right (by omega)
    have hset : c'.receives = c.receives.set j { g with wakes := g.wakes + 1 } := by
      rw [hreceives, hrec]
      exact modify_eq_set hg _
    refine ⟨hE, ?_, ?_⟩
    · intro f hf
      rw [hset] at hf
      rcases List.mem_or_eq_of_mem_set hf with hf | rfl
      · exact h.once f hf
      · refine ⟨by simp [hw], ?_⟩
        intro hr
        rw [hready] at hr
        cases hr
    · intro i hi
      rw [hreceiver, hrec] at hi
      obtain rfl := Option.some.inj hi
      rw [hset, get_set_self hg]
      refine ⟨_, rfl, ?_, ?_⟩
      · intro h0
        omega
      · intro _
        right
        simp [hw]

theorem pollStep_waking (h : Waking c) (hone : c.OnePush size a)
    (hstep : c.pollStep size a = some c') : Waking c' := by
  have hE := pollStep_ends h.ends hstep
  cases a with
  | send owner value =>
    obtain ⟨-, rfl⟩ := send_cases hstep
    exact h.congr hE rfl rfl rfl rfl id
  | receive =>
    obtain ⟨-, rfl⟩ := receive_cases hstep
    refine ⟨hE, forall_mem_concat h.once ⟨Nat.zero_le 1, fun _ => rfl⟩, ?_⟩
    · intro j hj
      obtain ⟨f, hf, hp⟩ := h.receiver j hj
      obtain ⟨hlt, -⟩ := List.getElem?_eq_some_iff.mp hf
      refine ⟨f, ?_, hp.congr rfl rfl id⟩
      rw [get_concat, if_neg (by omega)]
      exact hf
  | pollSend k =>
    obtain ⟨f, -, -, ha, ⟨-, rfl⟩ | ⟨hpush, rfl⟩ | ⟨-, -, rfl⟩⟩ := pollSend_cases hstep
    · exact h.congr hE rfl rfl rfl rfl id
    · exact h.push ha (hone hpush) hE rfl rfl rfl
    · exact h.congr hE rfl rfl rfl rfl id
  | pollReceive j =>
    obtain ⟨f, hf, -, ha, ⟨top, queue, hq, rfl⟩ | ⟨hq, hs, rfl⟩ | ⟨hq, -, rfl⟩⟩ :=
      pollReceive_cases hstep
    · refine h.ready hf hE rfl rfl rfl rfl ?_
      intro _ hempty
      rw [hq] at hempty
      cases hempty
    · refine h.ready hf hE rfl rfl rfl rfl ?_
      intro _ _
      exact ⟨hq, ((h.ends.alive ha).2).mp hs⟩
    · refine ⟨hE, WokenOnce.set h.once rfl, ?_⟩
      intro i hi
      obtain rfl := Option.some.inj hi
      refine ⟨_, get_set_self hf _, ?_, ?_⟩
      · intro _
        exact ⟨hq, rfl, Or.inl rfl⟩
      · intro h0
        exact absurd rfl h0
  | copySender i =>
    obtain ⟨hi, rfl⟩ := copySender_cases hstep
    refine h.congr hE rfl rfl rfl rfl ?_
    intro h0
    have := liveSenders_pos hi
    omega
  | dropSender i =>
    obtain ⟨hi, rfl⟩ := dropSender_cases hstep
    refine h.congr hE rfl rfl rfl rfl ?_
    intro h0
    have := liveSenders_pos hi
    omega
  | dropReceiver =>
    obtain ⟨-, rfl⟩ := dropReceiver_cases hstep
    exact h.congr hE rfl rfl rfl rfl id

/-- A second value after the `receive` suspended: it is registered again, or after it returned. -/
theorem not_wokenOnce_of_not_onePush (h : Waking c) (hone : ¬ c.OnePush size a)
    (hstep : c.pollStep size a = some c') : ¬ c'.WokenOnce := by
  cases a with
  | pollSend k =>
    have ⟨hpush, hrec, h0⟩ : c.Pushes size ∧ c.shared.receiver ≠ none ∧ c.pushes ≠ 0 := by
      simpa [OnePush, and_assoc] using hone
    obtain ⟨f, -, -, -, ⟨hclosed, -⟩ | ⟨-, rfl⟩ | ⟨hno, -, -⟩⟩ := pollSend_cases hstep
    · exact absurd hclosed hpush.1
    · intro hw
      obtain ⟨j, hj⟩ := Option.ne_none_iff_exists'.mp hrec
      obtain ⟨g, hg, hp⟩ := h.receiver j hj
      have hmem : { g with wakes := g.wakes + 1 } ∈ wakeReceive c.shared.receiver c.receives := by
        rw [hj]
        show _ ∈ c.receives.modify j _
        rw [modify_eq_set hg]
        exact List.mem_of_getElem? (get_set_self hg _)
      obtain ⟨hle, hzero⟩ := hw _ hmem
      rcases hp.stale h0 with hready | hone
      · exact absurd (hzero hready) (Nat.succ_ne_zero _)
      · simp only [hone] at hle
        omega
    · exact absurd hpush hno
  | send owner value => exact absurd trivial hone
  | receive => exact absurd trivial hone
  | pollReceive j => exact absurd trivial hone
  | copySender i => exact absurd trivial hone
  | dropSender i => exact absurd trivial hone
  | dropReceiver => exact absurd trivial hone

/-- A `receive` is registered at most once for every time it suspends, and never after it returned, in
exactly the runs in which at most one value is pushed between two suspending polls of `receive`. -/
theorem receive_woken_once_iff (size : ℕ) (as : List (PollAction V)) :
    Always (pollStep size) WokenOnce new as ↔ Along (pollStep size) (OnePush size) new as :=
  always_iff_along (fun _ h => h.once) (fun _ _ _ h hG hs => pollStep_waking h hG hs)
    (fun _ _ _ h hG hs => not_wokenOnce_of_not_onePush h hG hs) as waking_new

/-- The first value wakes the `receive`, which takes it and returns. When the second one is pushed,
`receiver_` still points to it. -/
def secondPushRun : List (PollAction ℕ) :=
  [.receive, .pollReceive 0, .send 0 10, .pollSend 0, .pollReceive 0, .send 0 20, .pollSend 1]

theorem receive_registered_after_ready :
    ∃ c, run (pollStep 1) new secondPushRun = some c ∧ c.receives = [⟨.ready (some 10), 1⟩] ∧
      ¬ c.WokenOnce := by
  obtain ⟨c, hrun, hreceives⟩ : ∃ c, run (pollStep 1) new secondPushRun = some c ∧
      c.receives = [⟨.ready (some 10), 1⟩] :=
    exists_run (by decide)
  refine ⟨c, hrun, hreceives, ?_⟩
  intro hw
  have h := (hw ⟨.ready (some 10), 1⟩ (by rw [hreceives]; exact List.mem_singleton_self _)).2 rfl
  cases h

/-! ## Closing one end wakes the other -/

theorem SendFuture.not_waiting {f : SendFuture V} (h : f.status.isPending = false) : ¬ f.Waiting := by
  rintro ⟨hpending, -⟩
  rw [h] at hpending
  cases hpending

theorem ReceiveFuture.not_waiting {f : ReceiveFuture V} (h : f.status.isPending = false) :
    ¬ f.Waiting := by
  rintro ⟨hpending, -⟩
  rw [h] at hpending
  cases hpending

theorem pollStep_noneForgotten (hE : Ends c) (h : c.NoneForgotten) (hG : c.ClosedUnawaited a)
    (hstep : c.pollStep size a = some c') : c'.NoneForgotten := by
  cases a with
  | send owner value =>
    obtain ⟨-, rfl⟩ := send_cases hstep
    refine ⟨h.receives, ?_⟩
    intro hg
    exact forall_mem_concat (h.sends hg) (SendFuture.not_waiting rfl)
  | receive =>
    obtain ⟨-, rfl⟩ := receive_cases hstep
    refine ⟨?_, h.sends⟩
    intro h0
    exact forall_mem_concat (h.receives h0) (ReceiveFuture.not_waiting rfl)
  | pollSend k =>
    obtain ⟨f, -, -, ha, hcases⟩ := pollSend_cases hstep
    have hpos := liveSenders_pos ha
    have hgone : c.receiverAlive = false → c.shared.state = .receiverClosed := fun hg =>
      (hE.gone hg).resolve_right (by omega)
    rcases hcases with ⟨-, rfl⟩ | ⟨hpush, rfl⟩ | ⟨-, hopen, rfl⟩
    · constructor
      · intro h0
        exact absurd h0 (Nat.ne_of_gt hpos)
      · intro hg
        exact forall_mem_set (h.sends hg) (SendFuture.not_waiting rfl)
    · constructor
      · intro h0
        exact absurd h0 (Nat.ne_of_gt hpos)
      · intro hg
        exact absurd (hgone hg) hpush.1
    · constructor
      · intro h0
        exact absurd h0 (Nat.ne_of_gt hpos)
      · intro hg
        exact absurd (hgone hg) hopen
  | pollReceive j =>
    obtain ⟨f, -, -, ha, hcases⟩ := pollReceive_cases hstep
    rcases hcases with ⟨top, queue, -, rfl⟩ | ⟨-, -, rfl⟩ | ⟨-, hopen, rfl⟩
    · constructor
      · intro h0
        exact forall_mem_set (h.receives h0) (ReceiveFuture.not_waiting rfl)
      · intro hg
        exact absurd (ha.symm.trans hg) (by decide)
    · constructor
      · intro h0
        exact forall_mem_set (h.receives h0) (ReceiveFuture.not_waiting rfl)
      · exact h.sends
    · constructor
      · intro h0
        exact absurd (((hE.alive ha).2).mpr h0) hopen
      · exact h.sends
  | copySender i =>
    obtain ⟨hi, rfl⟩ := copySender_cases hstep
    refine ⟨?_, h.sends⟩
    intro h0
    simp [liveSenders] at h0
  | dropSender i =>
    obtain ⟨hi, rfl⟩ := dropSender_cases hstep
    refine ⟨?_, h.sends⟩
    intro h0
    have hcount : (c.senderAlive.set i false).count true + 1 = c.liveSenders := count_set_false hi
    have h0 : (c.senderAlive.set i false).count true = 0 := h0
    exact hG (by omega)
  | dropReceiver =>
    obtain ⟨-, rfl⟩ := dropReceiver_cases hstep
    refine ⟨h.receives, ?_⟩
    intro _
    exact hG

/-- An end that is closed while a future waits at the other leaves it there. -/
theorem not_noneForgotten_of_awaited (hG : ¬ c.ClosedUnawaited a)
    (hstep : c.pollStep size a = some c') : ¬ c'.NoneForgotten := by
  cases a with
  | dropSender i =>
    obtain ⟨hi, rfl⟩ := dropSender_cases hstep
    intro h
    refine hG fun h1 => h.receives ?_
    have hcount : (c.senderAlive.set i false).count true + 1 = c.liveSenders := count_set_false hi
    show (c.senderAlive.set i false).count true = 0
    omega
  | dropReceiver =>
    obtain ⟨-, rfl⟩ := dropReceiver_cases hstep
    intro h
    exact hG (h.sends rfl)
  | send owner value => exact absurd trivial hG
  | receive => exact absurd trivial hG
  | pollSend k => exact absurd trivial hG
  | pollReceive j => exact absurd trivial hG
  | copySender i => exact absurd trivial hG

theorem noneForgotten_new : (new : Channel V).NoneForgotten := by
  constructor
  · intro _ f hf
    cases hf
  · intro _ f hf
    cases hf

/-- No future is left waiting for an end that is gone, in exactly the runs in which an end is closed
only while no future waits at the other. -/
theorem none_forgotten_iff (size : ℕ) (as : List (PollAction V)) :
    Always (pollStep size) NoneForgotten new as ↔
      Along (pollStep size) ClosedUnawaited new as := by
  apply always_iff_along (I := fun c : Channel V => Ends c ∧ c.NoneForgotten)
  · rintro c ⟨-, h⟩
    exact h
  · rintro c a c' ⟨hE, h⟩ hG hstep
    exact ⟨pollStep_ends hE hstep, pollStep_noneForgotten hE h hG hstep⟩
  · rintro c a c' - hG hstep
    exact not_noneForgotten_of_awaited hG hstep
  · exact ⟨ends_new, noneForgotten_new⟩

/-- A `receive` suspends, and then the last `Sender` is destroyed. -/
theorem receive_forgotten_by_last_sender :
    ∃ c, run (pollStep 1) (new : Channel ℕ) [.receive, .pollReceive 0, .dropSender 0] = some c ∧
      c.liveSenders = 0 ∧ c.receives = [⟨.pending, 0⟩] ∧ ¬ c.NoneForgotten := by
  obtain ⟨c, hrun, h0, hreceives⟩ : ∃ c, run (pollStep 1) (new : Channel ℕ)
      [.receive, .pollReceive 0, .dropSender 0] = some c ∧
      c.liveSenders = 0 ∧ c.receives = [⟨.pending, 0⟩] :=
    exists_run (by decide)
  refine ⟨c, hrun, h0, hreceives, ?_⟩
  intro h
  exact h.receives h0 ⟨.pending, 0⟩ (by rw [hreceives]; exact List.mem_singleton_self _) ⟨rfl, rfl⟩

end Xyco.Sync.Mpsc.Channel
