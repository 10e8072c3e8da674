import Xyco.Machine.Table
import Xyco.Net.EpollSocket

/-!
# Proofs: a socket on epoll

Every way to `Pending` but one stores the future and arms the event. The exception is the last line of
`accept`: it is reached when the event is registered and nothing was reported, which is what an
abandoned `accept` leaves. The other way to lose the event is an abandoned operation that takes
`future_` away, with its next `Pending` or its destructor, from the operation that a task waits for.
-/

namespace Xyco.Net.EpollSocket

open Machine Table Io

variable {s t : EpollSocket} {a : SocketAction} {i j : ℕ} {x y : SocketOp} {res : SysResult}
  {mask : EpollMask}

theorem contended_iff : s.Contended i ↔ ∃ j x, s.ops[j]? = some x ∧ j ≠ i ∧ x.waits = true := by
  constructor
  · rintro ⟨j, -, hne, hwaits⟩
    obtain ⟨x, hx, hwaits⟩ := (Option.any_eq_true _ _).mp hwaits
    exact ⟨j, x, hx, hne, hwaits⟩
  · rintro ⟨j, x, hx, hne, hwaits⟩
    exact ⟨j, (List.getElem?_eq_some_iff.mp hx).1, hne, (Option.any_eq_true _ _).mpr ⟨x, hx, hwaits⟩⟩

theorem eq_of_not_contended (h : ¬ s.Contended i) (hx : s.ops[j]? = some x) (hwaits : x.waits = true) :
    j = i := by
  by_contra hne
  exact h (contended_iff.mpr ⟨j, x, hx, hne, hwaits⟩)

theorem waits_eq_true : x.waits = true ↔ x.abandoned = false ∧ x.phase = .suspended := by
  simp [SocketOp.waits]

/-! ## The steps -/

theorem poll_cases (hstep : s.poll i res = some t) :
    ∃ x, s.ops[i]? = some x ∧ x.phase ≠ .suspended ∧ x.phase ≠ .over ∧
      ((decision x.kind s.state res ≠ .ready ∧ decision x.kind s.state res ≠ .pending ∧
          t = (s.store i x.kind).register.suspend i x) ∨
        (decision x.kind s.state res = .ready ∧ t = { s.setOp i { x with phase := .ready } with
          state := afterPoll x.kind s.state res, polled := none }) ∨
        (decision x.kind s.state res = .pending ∧ t = s.suspend i x)) := by
  unfold EpollSocket.poll at hstep
  split at hstep
  · cases hstep
  · rename_i x hx
    split at hstep
    · rename_i hphase
      refine ⟨x, hx, ?_, ?_, ?_⟩
      · rcases hphase with hp | hp <;> rw [hp] <;> exact nofun
      · rcases hphase with hp | hp <;> rw [hp] <;> exact nofun
      · split at hstep <;> rename_i hdecision <;> obtain rfl := Option.some.inj hstep
        · exact Or.inl ⟨hdecision ▸ nofun, hdecision ▸ nofun, rfl⟩
        · exact Or.inl ⟨hdecision ▸ nofun, hdecision ▸ nofun, rfl⟩
        · exact Or.inr (Or.inl ⟨hdecision, rfl⟩)
        · exact Or.inr (Or.inr ⟨hdecision, rfl⟩)
    · cases hstep

theorem report_cases (hstep : s.report mask = some t) :
    ∃ e, s.entry = some e ∧ e.armed = true ∧ e.interest.allows mask = true ∧
      t = { s with
        entry := some { e with armed := false }, reports := s.reports ++ [mask], polled := none } := by
  unfold EpollSocket.report at hstep
  split at hstep
  · cases hstep
  · rename_i e he
    obtain ⟨⟨harmed, hallows⟩, rfl⟩ := eq_of_guard hstep
    exact ⟨e, he, harmed, hallows, rfl⟩

theorem bound_eq_some (h : s.bound = some (i, x)) :
    s.future = some i ∧ s.ops[i]? = some x ∧ x.phase = .suspended := by
  unfold bound at h
  split at h
  · cases h
  · rename_i k hk
    split at h
    · cases h
    · rename_i y hy
      obtain ⟨hp, heq⟩ := eq_of_guard h
      obtain ⟨rfl, rfl⟩ := Prod.mk.inj heq
      exact ⟨hk, hy, hp⟩

theorem finish_cases (hstep : s.finish i = some t) :
    ∃ x, s.ops[i]? = some x ∧ x.phase = .ready ∧
      t = { s.setOp i { x with phase := .over } with future := none, polled := none } := by
  unfold EpollSocket.finish at hstep
  split at hstep
  · cases hstep
  · rename_i x hx
    obtain ⟨hp, rfl⟩ := eq_of_guard hstep
    exact ⟨x, hx, hp, rfl⟩

theorem abandon_cases (hstep : s.abandon i = some t) :
    ∃ x, s.ops[i]? = some x ∧ x.phase ≠ .over ∧
      t = { s.setOp i { x with abandoned := true } with polled := none } := by
  unfold EpollSocket.abandon at hstep
  split at hstep
  · cases hstep
  · rename_i x hx
    obtain ⟨hp, rfl⟩ := eq_of_guard hstep
    exact ⟨x, hx, hp, rfl⟩

/-! ## The invariant -/

/-- `future_` is a suspended operation, and each report has its entry in `registered_events_`. -/
structure Tracked (s : EpollSocket) : Prop where
  owner : ∀ i, s.future = some i → ∃ x, s.ops[i]? = some x ∧ x.phase = .suspended
  listed : s.reports.length + (if s.entry.any EpollEntry.armed then 1 else 0) ≤ s.listed
  kinds : ∀ x ∈ s.ops, (x.kind = .accept ↔ s.listener = true)
  interest : s.listener = true → s.interest = .read
  served : s.Served

/-- After a step in which no poll has returned `Pending`. -/
theorem Served.of_quiet (hpolled : t.polled = none)
    (h : ∀ j y, t.ops[j]? = some y → y.waits = true →
      t.future = some j ∧ (t.ArmedFor y ∨ t.reports ≠ [] ∨ 0 < t.wakes)) : t.Served := by
  refine fun j y hy => ⟨fun hj => ?_, h j y hy⟩
  cases hpolled.symm.trans hj

/-- `future_` of an operation that is not suspended is another one. -/
theorem Tracked.unstored (hs : Tracked s) (hx : s.ops[i]? = some x) (hp : x.phase ≠ .suspended) :
    s.future ≠ some i := by
  intro hi
  obtain ⟨y, hy, hsuspended⟩ := hs.owner i hi
  obtain rfl := Option.some.inj (hx.symm.trans hy)
  exact hp hsuspended

/-- The owner of `future_`, when an operation that is not suspended moves on. -/
theorem Tracked.owner_set (hs : Tracked s) (hx : s.ops[i]? = some x) (hp : x.phase ≠ .suspended)
    (y : SocketOp) : ∀ j, s.future = some j →
      ∃ z, (s.ops.set i y)[j]? = some z ∧ z.phase = .suspended := by
  intro j hj
  have hji : j ≠ i := fun h => hs.unstored hx hp (h ▸ hj)
  obtain ⟨z, hz, hsuspended⟩ := hs.owner j hj
  exact ⟨z, by rw [get_set hx, if_neg hji]; exact hz, hsuspended⟩

theorem Tracked.kinds_set (hs : Tracked s) (hx : s.ops[i]? = some x) (hkind : y.kind = x.kind) :
    ∀ z ∈ s.ops.set i y, (z.kind = .accept ↔ s.listener = true) := by
  refine forall_mem_set hs.kinds ?_
  rw [hkind]
  exact hs.kinds x (List.mem_of_getElem? hx)

/-- The operations that tasks wait for, when one moves on to a point where none waits for it. -/
theorem waits_set (hx : s.ops[i]? = some x) (hy : y.waits = false)
    {z : SocketOp} (hz : (s.ops.set i y)[j]? = some z) (hwaits : z.waits = true) :
    j ≠ i ∧ s.ops[j]? = some z := by
  rw [get_set hx] at hz
  split at hz
  · obtain rfl := Option.some.inj hz
    cases hy.symm.trans hwaits
  · rename_i hne
    exact ⟨hne, hz⟩

theorem Tracked.start {kind : OpKind} (hs : Tracked s) (hstep : s.start kind = some t) :
    Tracked t := by
  obtain ⟨⟨-, hkind⟩, rfl⟩ := eq_of_guard hstep
  refine ⟨fun i hi => ?_, hs.listed, ?_, hs.interest, Served.of_quiet rfl fun j y hy hwaits => ?_⟩
  · obtain ⟨x, hx, hp⟩ := hs.owner i hi
    refine ⟨x, ?_, hp⟩
    rw [List.getElem?_append_left (List.getElem?_eq_some_iff.mp hx).1, hx]
  · exact forall_mem_concat hs.kinds hkind
  · simp only [get_concat] at hy
    split at hy
    · obtain rfl := Option.some.inj hy
      cases hwaits
    · exact (hs.served j y hy).2 hwaits

theorem store_interest (hs : Tracked s) (hx : s.ops[i]? = some x) :
    (s.store i x.kind).interest = x.kind.interest := by
  unfold store
  dsimp only
  split
  · rename_i haccept
    have hlistener := (hs.kinds x (List.mem_of_getElem? hx)).mp haccept
    rw [hs.interest hlistener, haccept]
    rfl
  · rfl

/-- A poll that stores its future and registers the event, while no task waits for another
operation. -/
theorem Tracked.register (hs : Tracked s) (hx : s.ops[i]? = some x) (hfree : ¬ s.Contended i) :
    Tracked ((s.store i x.kind).register.suspend i x) := by
  have hinterest := store_interest hs hx
  have harmed : ((s.store i x.kind).register.suspend i x).entry = some ⟨x.kind.interest, true⟩ := by
    rw [← hinterest]
    rfl
  refine ⟨fun j hj => ?_, ?_, hs.kinds_set hx rfl, fun hl => ?_, fun j y hy => ?_⟩
  · obtain rfl := Option.some.inj hj
    exact ⟨_, get_set_self hx _, rfl⟩
  · have := hs.listed
    show s.reports.length + 1 ≤ s.listed + 1
    omega
  · have hkind := (hs.kinds x (List.mem_of_getElem? hx)).mpr hl
    exact hinterest.trans (congrArg OpKind.interest hkind)
  · have hops : (s.ops.set i { x with phase := .suspended })[j]? = some y := hy
    rw [get_set hx] at hops
    split at hops
    · rename_i hji
      obtain rfl := Option.some.inj hops
      subst hji
      exact ⟨fun _ => ⟨rfl, harmed⟩, fun _ => ⟨rfl, Or.inl harmed⟩⟩
    · rename_i hji
      refine ⟨fun hj => absurd (Option.some.inj hj).symm hji, fun hwaits => ?_⟩
      exact absurd (eq_of_not_contended hfree hops hwaits) hji

theorem decision_eq_pending_iff (kind : OpKind) (state : EventState) (res : SysResult) :
    decision kind state res = .pending ↔
      kind = .accept ∧ state.registered = true ∧ state.error = false ∧ state.readable = false := by
  unfold decision
  cases kind <;> grind

theorem decision_ne_pending_iff (kind : OpKind) (state : EventState) (res : SysResult) :
    decision kind state res ≠ .pending ↔
      (kind = .accept → state.registered = true → state.error = true ∨ state.readable = true) := by
  rw [ne_eq, decision_eq_pending_iff]
  constructor
  · intro h hkind hregistered
    by_contra hneither
    rw [not_or, Bool.not_eq_true, Bool.not_eq_true] at hneither
    exact h ⟨hkind, hregistered, hneither⟩
  · rintro h ⟨hkind, hregistered, herror, hreadable⟩
    rcases h hkind hregistered with htrue | htrue
    · cases herror.symm.trans htrue
    · cases hreadable.symm.trans htrue

theorem Tracked.poll (hs : Tracked s) (hlistens : s.Listens (.poll i res))
    (hstep : s.poll i res = some t) : Tracked t := by
  obtain ⟨x, hx, hp, -, hcases⟩ := poll_cases hstep
  obtain ⟨haccept, hfree⟩ := hlistens x hx
  rcases hcases with ⟨hready, -, rfl⟩ | ⟨-, rfl⟩ | ⟨hpending, rfl⟩
  · exact hs.register hx (hfree hready)
  · refine ⟨hs.owner_set hx hp _, hs.listed, hs.kinds_set hx rfl, hs.interest,
      Served.of_quiet rfl fun j y hy hwaits => ?_⟩
    obtain ⟨-, hy⟩ := waits_set hx (by simp [SocketOp.waits]) hy hwaits
    exact (hs.served j y hy).2 hwaits
  · exact absurd hpending ((decision_ne_pending_iff _ _ _).mpr haccept)

theorem Tracked.report (hs : Tracked s) (hstep : s.report mask = some t) : Tracked t := by
  obtain ⟨e, he, harmed, -, rfl⟩ := report_cases hstep
  have hpush : s.reports ++ [mask] ≠ [] := List.append_ne_nil_of_right_ne_nil _ nofun
  refine ⟨hs.owner, ?_, hs.kinds, hs.interest, Served.of_quiet rfl fun j y hy hwaits => ?_⟩
  · have hlisted := hs.listed
    rw [he, Option.any_some, if_pos harmed] at hlisted
    show (s.reports ++ [mask]).length + 0 ≤ s.listed
    rw [List.length_append]
    exact hlisted
  · exact ⟨((hs.served j y hy).2 hwaits).1, Or.inr (Or.inl hpush)⟩

theorem Tracked.handle (hs : Tracked s) (hstep : s.handle = some t) : Tracked t := by
  unfold EpollSocket.handle at hstep
  split at hstep
  · cases hstep
  · rename_i mask reports hreports
    have hlisted := hs.listed
    rw [hreports, List.length_cons] at hlisted
    rw [if_neg (by omega)] at hstep
    obtain rfl := Option.some.inj hstep
    refine ⟨hs.owner, ?_, hs.kinds, hs.interest, Served.of_quiet rfl fun j y hy hwaits => ?_⟩
    · show reports.length + (if s.entry.any EpollEntry.armed then 1 else 0) ≤ s.listed - 1
      omega
    · exact ⟨((hs.served j y hy).2 hwaits).1, Or.inr (Or.inr (Nat.succ_pos _))⟩

theorem Tracked.bound_of_future (hs : Tracked s) (hi : s.future = some i) :
    ∃ x, s.bound = some (i, x) := by
  obtain ⟨x, hx, hp⟩ := hs.owner i hi
  refine ⟨x, ?_⟩
  simp only [bound, hi, hx, hp, if_true]

theorem Tracked.wake (hs : Tracked s) (hstep : s.wake = some t) : Tracked t := by
  unfold EpollSocket.wake at hstep
  split at hstep
  · cases hstep
  · split at hstep
    · rename_i i x hbound
      obtain rfl := Option.some.inj hstep
      obtain ⟨hi, hx, -⟩ := bound_eq_some hbound
      refine ⟨nofun, hs.listed, hs.kinds_set hx rfl, hs.interest,
        Served.of_quiet rfl fun j y hy hwaits => ?_⟩
      -- an operation that a task waits for is the one that was in `future_`
      obtain ⟨hne, hy⟩ := waits_set hx (by simp [SocketOp.waits]) hy hwaits
      exact absurd (Option.some.inj (((hs.served j y hy).2 hwaits).1.symm.trans hi)) hne
    · rename_i hnone
      obtain rfl := Option.some.inj hstep
      refine ⟨nofun, hs.listed, hs.kinds, hs.interest, Served.of_quiet rfl fun j y hy hwaits => ?_⟩
      obtain ⟨z, hbound⟩ := hs.bound_of_future ((hs.served j y hy).2 hwaits).1
      cases hnone.symm.trans hbound

theorem Tracked.finish (hs : Tracked s) (hfree : ¬ s.Contended i) (hstep : s.finish i = some t) :
    Tracked t := by
  obtain ⟨x, hx, -, rfl⟩ := finish_cases hstep
  refine ⟨nofun, hs.listed, hs.kinds_set hx rfl, hs.interest,
    Served.of_quiet rfl fun j y hy hwaits => ?_⟩
  obtain ⟨hne, hy⟩ := waits_set hx (by simp [SocketOp.waits]) hy hwaits
  exact absurd (eq_of_not_contended hfree hy hwaits) hne

theorem Tracked.abandon (hs : Tracked s) (hstep : s.abandon i = some t) : Tracked t := by
  obtain ⟨x, hx, -, rfl⟩ := abandon_cases hstep
  refine ⟨fun j hj => ?_, hs.listed, hs.kinds_set hx rfl, hs.interest,
    Served.of_quiet rfl fun j y hy hwaits => ?_⟩
  · obtain ⟨y, hy, hp⟩ := hs.owner j hj
    show ∃ z, (s.ops.set i { x with abandoned := true })[j]? = some z ∧ _
    rw [get_set hx]
    split
    · rename_i hji
      rw [hji, hx] at hy
      obtain rfl := Option.some.inj hy
      exact ⟨_, rfl, hp⟩
    · exact ⟨y, hy, hp⟩
  · obtain ⟨-, hy⟩ := waits_set hx (by simp [SocketOp.waits]) hy hwaits
    exact (hs.served j y hy).2 hwaits

theorem step_tracked (hs : Tracked s) (hlistens : s.Listens a) (hstep : s.step a = some t) :
    Tracked t := by
  cases a with
  | start kind => exact hs.start hstep
  | poll i res => exact hs.poll hlistens hstep
  | report mask => exact hs.report hstep
  | handle => exact hs.handle hstep
  | wake => exact hs.wake hstep
  | finish i => exact hs.finish hlistens hstep
  | abandon i => exact hs.abandon hstep

/-! ## The condition is needed -/

/-- A task waits for an operation whose future is no longer in `future_`. -/
theorem not_served_of_contended (hcontended : s.Contended i) (hother : ∀ j, j ≠ i → t.future ≠ some j)
    (hops : ∀ j x, j ≠ i → s.ops[j]? = some x → t.ops[j]? = some x) : ¬ t.Served := by
  intro hserved
  obtain ⟨j, x, hx, hne, hwaits⟩ := contended_iff.mp hcontended
  exact hother j hne ((hserved j x (hops j x hne hx)).2 hwaits).1

theorem get_set_other (hx : s.ops[i]? = some x) (y : SocketOp) :
    ∀ j z, j ≠ i → s.ops[j]? = some z → (s.ops.set i y)[j]? = some z := by
  intro j z hne hz
  rw [get_set hx, if_neg hne]
  exact hz

theorem poll_unserved (hs : Tracked s) (hlistens : ¬ s.Listens (.poll i res))
    (hstep : s.poll i res = some t) : ¬ t.Served := by
  obtain ⟨x, hx, hp, -, hcases⟩ := poll_cases hstep
  rcases hcases with ⟨hready, hpending, rfl⟩ | ⟨hready, rfl⟩ | ⟨hpending, rfl⟩
  · -- another operation loses `future_`
    have hcontended : s.Contended i := by
      by_contra hfree
      refine hlistens fun y hy => ?_
      obtain rfl := Option.some.inj (hx.symm.trans hy)
      exact ⟨(decision_ne_pending_iff _ _ _).mp hpending, fun _ => hfree⟩
    exact not_served_of_contended hcontended (fun j hne hj => hne (Option.some.inj hj).symm)
      (get_set_other hx _)
  · refine absurd (fun y hy => ?_) hlistens
    obtain rfl := Option.some.inj (hx.symm.trans hy)
    refine ⟨(decision_ne_pending_iff x.kind s.state res).mp ?_, fun hne => absurd hready hne⟩
    rw [hready]
    exact nofun
  · -- the last line of `accept` does not store the future
    intro hserved
    exact hs.unstored hx hp ((hserved i _ (get_set_self hx _)).1 rfl).1

theorem step_unserved (hs : Tracked s) (hlistens : ¬ s.Listens a) (hstep : s.step a = some t) :
    ¬ t.Served := by
  cases a with
  | poll i res => exact poll_unserved hs hlistens hstep
  | finish i =>
    obtain ⟨x, hx, -, rfl⟩ := finish_cases hstep
    exact not_served_of_contended (not_not.mp hlistens) (fun _ _ => nofun) (get_set_other hx _)
  | start kind => exact absurd trivial hlistens
  | report mask => exact absurd trivial hlistens
  | handle => exact absurd trivial hlistens
  | wake => exact absurd trivial hlistens
  | abandon i => exact absurd trivial hlistens

theorem New.tracked (hs : New s) : Tracked s := by
  rcases hs with ⟨writable, readable, rfl⟩ | rfl
  · exact ⟨nofun, Nat.le_refl 0, nofun, nofun, Served.of_quiet rfl nofun⟩
  · exact ⟨nofun, Nat.le_refl 0, nofun, fun _ => rfl, Served.of_quiet rfl nofun⟩

/-- For every history of operations on a stream or a listener, abandoned ones included, `Pending`
means that the event is armed for the operation, with its future, exactly if no `accept` is polled
while the event is registered and neither readable nor in error, and no abandoned operation is polled
without `Ready` or destroyed while a task waits for a later one. -/
theorem pending_is_armed (s : EpollSocket) (hnew : New s) (as : List SocketAction) :
    Always step Served s as ↔ Along step Listens s as :=
  always_iff_along (fun _ hs => hs.served) (fun _ _ _ => step_tracked) (fun _ _ _ => step_unserved) as
    hnew.tracked

/-- On a stream: a read is abandoned, and a write takes the event over. -/
theorem pending_is_armed_stream :
    ∃ as t, run step (stream false false) as = some t ∧ t.future = some 1 ∧
      t.ops = [⟨.read, .suspended, true⟩, ⟨.write, .suspended, false⟩] ∧
      t.entry = some ⟨.write, true⟩ ∧ Always step Served (stream false false) as := by
  have hrun : ∃ as t, run step (stream false false) as = some t ∧
      Along step Listens (stream false false) as ∧ t.future = some 1 ∧
      t.ops = [⟨.read, .suspended, true⟩, ⟨.write, .suspended, false⟩] ∧
      t.entry = some ⟨.write, true⟩ := by
    refine ⟨[.start .read, .poll 0 .ok, .abandon 0, .start .write, .poll 1 .ok], ?_⟩
    exact exists_run (by decide)
  obtain ⟨as, t, hrun, hlistens, hfuture, hops, hentry⟩ := hrun
  have hserved := (pending_is_armed (stream false false) (Or.inl ⟨false, false, rfl⟩) as).mpr hlistens
  exact ⟨as, t, hrun, hfuture, hops, hentry, hserved⟩

/-- An `accept` is abandoned while it is suspended. The next one returns `Pending` and `future_` is
still the first: the next connection wakes nobody who waits for it. On a stream, a `read` that was
abandoned and woken is destroyed while the next one waits, which leaves `future_` null. -/
theorem pending_not_armed :
    (∃ t, run step listening
        [.start .accept, .poll 0 .ok, .abandon 0, .start .accept, .poll 1 .ok] = some t ∧
      t.ops = [⟨.accept, .suspended, true⟩, ⟨.accept, .suspended, false⟩] ∧ t.polled = some 1 ∧
      t.future = some 0 ∧ ¬ t.Served) ∧
    ∃ t, run step (stream false false)
        [.start .read, .poll 0 .ok, .abandon 0, .report ⟨true, false, false, false, false, false⟩,
         .handle, .wake, .start .read, .poll 1 .again, .poll 0 .ok, .finish 0] = some t ∧
      t.ops = [⟨.read, .over, true⟩, ⟨.read, .suspended, false⟩] ∧ t.future = none ∧ ¬ t.Served := by
  refine ⟨⟨_, rfl, rfl, rfl, rfl, fun hserved => ?_⟩, ⟨_, rfl, rfl, rfl, fun hserved => ?_⟩⟩
  · cases ((hserved 1 _ rfl).1 rfl).1
  · cases ((hserved 1 _ rfl).2 rfl).1

end Xyco.Net.EpollSocket
