import Xyco.Net.Proofs.EpollDuplexProofs
import Xyco.Net.Proofs.EpollSocketProofs

/-!
# Proofs: the two models of a stream on epoll

`EpollSocket` has one operation at a time, and a poll or a wake-up is one step of it. `EpollDuplex`
cuts both where the other task may come in. A run of the first on a stream, without abandoned
operations, is a run of the second: each step is carried out in pieces, with nothing in between.
-/

namespace Xyco.Net

open Machine Io

/-- Where the last operation is in the finer model. -/
def SocketPhase.task : SocketPhase → DuplexTask
  | .fresh => ⟨.polling, false⟩
  | .suspended => ⟨.suspended, false⟩
  | .queued => ⟨.suspended, true⟩
  | .ready => ⟨.ready, false⟩
  | .over => ⟨.idle, false⟩

namespace EpollSocket

open Table

variable {s t : EpollSocket} {a : SocketAction} {d : Direction} {first : Bool} {i : ℕ}
variable {x y : SocketOp} {res : SysResult} {mask : EpollMask} {u : EpollDuplex}

def last (s : EpollSocket) : SocketOp := s.ops.getLastD ⟨.read, .over, false⟩

/-- The stream with its last operation, in direction `d`, at `x`. -/
def duplexAt (s : EpollSocket) (d : Direction) (x : DuplexTask) : EpollDuplex where
  state := s.state
  interest := s.interest
  future := s.future.map fun _ => d
  entry := s.entry
  listed := s.listed
  reports := s.reports
  wakes := s.wakes
  grabbed := []
  tasks := Function.update (fun _ => ⟨.idle, false⟩) d x
  fault := s.fault

def duplex (s : EpollSocket) (d : Direction) : EpollDuplex := s.duplexAt d s.last.phase.task

/-- No operation was abandoned, so all of them but the last are over. -/
structure Alone (s : EpollSocket) : Prop where
  kept : ∀ x ∈ s.ops, x.abandoned = false
  earlier : ∀ i x, s.ops[i]? = some x → i + 1 < s.ops.length → x.phase = .over

theorem Alone.index (h : Alone s) (hx : s.ops[i]? = some x) (hp : x.phase ≠ .over) :
    i + 1 = s.ops.length := by
  have hlt := (List.getElem?_eq_some_iff.mp hx).1
  by_contra hne
  exact hp (h.earlier i x hx (by omega))

theorem last_eq (hx : s.ops[i]? = some x) (hi : i + 1 = s.ops.length) : s.last = x := by
  rw [last, List.getLastD_eq_getLast?, List.getLast?_eq_getElem?, ← hi, Nat.add_sub_cancel, hx]
  rfl

theorem Alone.last_eq (h : Alone s) (hx : s.ops[i]? = some x) (hp : x.phase ≠ .over) : s.last = x :=
  EpollSocket.last_eq hx (h.index hx hp)

/-- The last operation moves on. -/
theorem Alone.set (h : Alone s) (hx : s.ops[i]? = some x) (hp : x.phase ≠ .over)
    (hy : y.abandoned = false) (hops : t.ops = s.ops.set i y) : Alone t ∧ t.last = y := by
  have hi := h.index hx hp
  have hself : t.ops[i]? = some y := by
    rw [hops]
    exact get_set_self hx y
  have hlen : t.ops.length = s.ops.length := by rw [hops, List.length_set]
  refine ⟨⟨?_, fun j z hz hj => ?_⟩, EpollSocket.last_eq hself (by rw [hlen]; exact hi)⟩
  · rw [hops]
    exact forall_mem_set h.kept hy
  · rw [hlen] at hj
    rw [hops, get_set hx, if_neg (by omega)] at hz
    exact h.earlier j z hz hj

theorem Alone.not_contended (h : Alone s) (hx : s.ops[i]? = some x) (hp : x.phase ≠ .over) :
    ¬ s.Contended i := by
  intro hcontended
  obtain ⟨j, y, hy, hne, hwaits⟩ := contended_iff.mp hcontended
  have hsuspended := (waits_eq_true.mp hwaits).2
  have hi := h.index hx hp
  have hj := h.index hy (by rw [hsuspended]; exact nofun)
  omega

theorem tasks_duplexAt (s : EpollSocket) (d : Direction) (x : DuplexTask) :
    (s.duplexAt d x).tasks d = x := by
  simp only [duplexAt, Function.update_self]

theorem setTask_duplexAt (s : EpollSocket) (d : Direction) (x y : DuplexTask) :
    (s.duplexAt d x).setTask d y = s.duplexAt d y := by
  unfold EpollDuplex.setTask duplexAt
  simp only [Function.update_idem]

theorem goTo_duplexAt (s : EpollSocket) (d : Direction) (x : DuplexTask) (p : DuplexPoint) :
    (s.duplexAt d x).goTo d p = s.duplexAt d { x with point := p } := by
  unfold EpollDuplex.goTo
  rw [tasks_duplexAt, setTask_duplexAt]

/-! ## A poll -/

theorem test_duplexAt (s : EpollSocket) (d : Direction) (res : SysResult)
    (hdecision : decision d.kind s.state res = if first then .register else .reregister) :
    (s.duplexAt d ⟨.polling, false⟩).test d res = some (s.duplexAt d ⟨.storing first, false⟩) := by
  have hstate : decision d.kind (s.duplexAt d ⟨.polling, false⟩).state res =
      if first then .register else .reregister := hdecision
  unfold EpollDuplex.test
  rw [tasks_duplexAt, if_pos rfl, hstate]
  cases first with
  | true => exact congrArg some (goTo_duplexAt s d _ _)
  | false => exact congrArg some (goTo_duplexAt s d _ _)

theorem store_duplexAt (s : EpollSocket) (i : ℕ) (d : Direction) (first : Bool) :
    (s.duplexAt d ⟨.storing first, false⟩).store d =
      some ((s.store i d.kind).duplexAt d ⟨.entering first, false⟩) := by
  unfold EpollDuplex.store
  rw [tasks_duplexAt]
  have hstore : { s.duplexAt d ⟨.storing first, false⟩ with future := some d, interest := d.interest } =
      (s.store i d.kind).duplexAt d ⟨.storing first, false⟩ := by
    unfold EpollSocket.store duplexAt
    cases d <;> simp [Direction.kind, Direction.interest]
  simp only [hstore, goTo_duplexAt]

/-- The event after `Register` or `reregister`, up to `epoll_ctl`. -/
def entered (s : EpollSocket) (first : Bool) : EpollSocket :=
  { s with
    listed := s.listed + 1
    state := { s.state with registered := s.state.registered || first } }

theorem enter_duplexAt (s : EpollSocket) (d : Direction) (first : Bool) :
    (s.duplexAt d ⟨.entering first, false⟩).enter d =
      some ((s.entered first).duplexAt d ⟨.arming first s.interest, false⟩) := by
  unfold EpollDuplex.enter
  rw [tasks_duplexAt]
  exact congrArg some (goTo_duplexAt (s.entered first) d _ _)

theorem ctl_duplexAt (hentry : s.entry.isSome = !first)
    (hregistered : (s.state.registered || first) = true) :
    ((s.entered first).duplexAt d ⟨.arming first s.interest, false⟩).ctl d =
      some (s.register.duplexAt d ⟨.suspended, false⟩) := by
  unfold EpollDuplex.ctl
  rw [tasks_duplexAt]
  have hctl : { (s.entered first).duplexAt d ⟨.arming first s.interest, false⟩ with
      entry := some ⟨s.interest, true⟩ } = s.register.duplexAt d ⟨.arming first s.interest, false⟩ := by
    unfold register entered duplexAt
    simp only [hregistered]
  refine (if_pos hentry).trans ?_
  rw [hctl, goTo_duplexAt]

/-- A poll that goes to `Pending`, in four steps. -/
theorem poll_pending (first : Bool) (i : ℕ)
    (h : Reachable EpollDuplex.step u (s.duplexAt d ⟨.polling, false⟩))
    (hentry : s.entry.isSome = !first) (hregistered : (s.state.registered || first) = true)
    (hdecision : decision d.kind s.state res = if first then .register else .reregister) :
    Reachable EpollDuplex.step u ((s.store i d.kind).register.duplexAt d ⟨.suspended, false⟩) := by
  have htest := h.tail (a := DuplexAction.test d res) (test_duplexAt s d res hdecision)
  have hstore := htest.tail (a := DuplexAction.store d) (store_duplexAt s i d first)
  have henter := hstore.tail (a := DuplexAction.enter d) (enter_duplexAt (s.store i d.kind) d first)
  exact henter.tail (a := DuplexAction.ctl d) (ctl_duplexAt hentry hregistered)

theorem ready_duplexAt (s : EpollSocket) (hdecision : decision d.kind s.state res = .ready) :
    (s.duplexAt d ⟨.polling, false⟩).test d res =
      some ({ s with state := afterPoll d.kind s.state res }.duplexAt d ⟨.ready, false⟩) := by
  have hstate : decision d.kind (s.duplexAt d ⟨.polling, false⟩).state res = .ready := hdecision
  unfold EpollDuplex.test
  rw [tasks_duplexAt, if_pos rfl, hstate]
  exact congrArg some (goTo_duplexAt { s with state := afterPoll d.kind s.state res } d _ _)

/-- The future is polled for the first time, or taken from the run queue. -/
theorem reachable_polling (h : Reachable EpollDuplex.step u (s.duplex d))
    (hphase : s.last.phase = .fresh ∨ s.last.phase = .queued) :
    Reachable EpollDuplex.step u (s.duplexAt d ⟨.polling, false⟩) := by
  rcases hphase with hp | hp
  · rw [duplex, hp] at h
    exact h
  · rw [duplex, hp] at h
    refine h.tail (a := DuplexAction.take d) ?_
    show (s.duplexAt d ⟨.suspended, true⟩).take d = _
    unfold EpollDuplex.take
    rw [tasks_duplexAt, if_pos ⟨rfl, rfl⟩, setTask_duplexAt]

/-- The stream, with its last operation in direction `d`, is a state that the finer model reaches from
`u`. -/
structure Follows (u : EpollDuplex) (d : Direction) (s : EpollSocket) : Prop where
  alone : Alone s
  kind : s.last.kind = d.kind
  reachable : Reachable EpollDuplex.step u (s.duplex d)

/-- The last operation moves on, and the finer model with it. -/
theorem Follows.set (h : Follows u d s) (hx : s.ops[i]? = some x) (hp : x.phase ≠ .over)
    (hops : t.ops = s.ops.set i y) (hkind : y.kind = x.kind) (habandoned : y.abandoned = x.abandoned)
    (hreach : Reachable EpollDuplex.step u (t.duplexAt d y.phase.task)) : Follows u d t := by
  have hy : y.abandoned = false := habandoned.trans (h.alone.kept x (List.mem_of_getElem? hx))
  obtain ⟨halone, hlast⟩ := h.alone.set hx hp hy hops
  refine ⟨halone, ?_, ?_⟩
  · rw [hlast, hkind, ← h.alone.last_eq hx hp]
    exact h.kind
  · rw [duplex, hlast]
    exact hreach

/-- Nothing happens to the operations. -/
theorem Follows.same (h : Follows u d s) (hops : t.ops = s.ops)
    (hreach : Reachable EpollDuplex.step u (t.duplexAt d s.last.phase.task)) : Follows u d t := by
  have hlast : t.last = s.last := by rw [last, hops, last]
  refine ⟨⟨?_, ?_⟩, ?_, ?_⟩
  · rw [hops]
    exact h.alone.kept
  · rw [hops]
    exact h.alone.earlier
  · rw [hlast]
    exact h.kind
  · rw [duplex, hlast]
    exact hreach

theorem Follows.poll (h : Follows u d s) (hflag : s.state.registered = s.entry.isSome)
    (hstep : s.poll i res = some t) : Follows u d t := by
  unfold EpollSocket.poll at hstep
  split at hstep
  · cases hstep
  · rename_i x hx
    split at hstep
    · rename_i hphase
      have hp : x.phase ≠ .over := by
        rcases hphase with hp | hp <;> rw [hp] <;> exact nofun
      have hlast := h.alone.last_eq hx hp
      have hkind : x.kind = d.kind := hlast ▸ h.kind
      have hpolling := reachable_polling h.reachable (hlast.symm ▸ hphase)
      rw [hkind] at hstep
      split at hstep
      · rename_i hdecision
        obtain rfl := Option.some.inj hstep
        have hregistered := EpollDuplex.decision_register (s := s.duplex d) hdecision
        refine h.set hx hp rfl rfl rfl (poll_pending true i hpolling ?_ (Bool.or_true _) hdecision)
        exact hflag.symm.trans hregistered
      · rename_i hdecision
        obtain rfl := Option.some.inj hstep
        have hregistered := EpollDuplex.decision_reregister (s := s.duplex d) hdecision
        refine h.set hx hp rfl rfl rfl (poll_pending false i hpolling ?_ ?_ hdecision)
        · exact hflag.symm.trans hregistered
        · exact (Bool.or_false _).trans hregistered
      · rename_i hdecision
        obtain rfl := Option.some.inj hstep
        exact h.set hx hp rfl hkind.symm rfl
          (hpolling.tail (a := DuplexAction.test d res) (ready_duplexAt s hdecision))
      · rename_i hpending
        exact absurd hpending (EpollDuplex.decision_ne_pending (s := s.duplex d) d)
    · cases hstep

/-! ## The other steps -/

theorem Follows.start {kind : OpKind} (h : Follows u d s) (hs : Tracked s)
    (hlistener : s.listener = false) (hstep : s.start kind = some t) :
    ∃ e : Direction, Follows u e t := by
  obtain ⟨⟨hends, hkind⟩, rfl⟩ := eq_of_guard hstep
  have hover : ∀ x ∈ s.ops, x.phase = .over := by
    intro x hx
    rcases hends x hx with hp | habandoned
    · exact hp
    · cases (h.alone.kept x hx).symm.trans habandoned
  have hidle : s.last.phase = .over := by
    rw [last, List.getLastD_eq_getLast?]
    cases hlast : s.ops.getLast? with
    | none => rfl
    | some x => exact hover x (List.mem_of_getLast? hlast)
  have hnone : s.future = none := by
    rw [Option.eq_none_iff_forall_ne_some]
    intro i hi
    obtain ⟨x, hx, hp⟩ := hs.owner i hi
    cases hp.symm.trans (hover x (List.mem_of_getElem? hx))
  have hdirection : ∀ e, s.duplexAt e ⟨.idle, false⟩ = s.duplex d := by
    intro e
    rw [duplex, hidle]
    unfold duplexAt
    rw [hnone, SocketPhase.task]
    simp only [Option.map_none, Function.update_eq_self]
  obtain ⟨e, rfl⟩ : ∃ e : Direction, kind = e.kind := by
    cases kind with
    | read => exact ⟨.read, rfl⟩
    | write => exact ⟨.write, rfl⟩
    | accept => cases hlistener.symm.trans (hkind.mp rfl)
  have hlast : (s.ops ++ [SocketOp.mk e.kind .fresh false]).getLastD ⟨.read, .over, false⟩ =
      ⟨e.kind, .fresh, false⟩ := List.getLastD_concat
  refine ⟨e, ⟨?_, fun j y hy hj => ?_⟩, ?_, ?_⟩
  · exact forall_mem_concat h.alone.kept rfl
  · simp only [List.length_append, List.length_singleton] at hj
    simp only [get_concat, if_neg (show j ≠ s.ops.length by omega)] at hy
    exact hover y (List.mem_of_getElem? hy)
  · exact congrArg SocketOp.kind hlast
  · refine h.reachable.tail (a := DuplexAction.start e) ?_
    rw [← hdirection e, duplex]
    unfold last
    rw [hlast]
    show (s.duplexAt e ⟨.idle, false⟩).start e = _
    unfold EpollDuplex.start
    rw [tasks_duplexAt, if_pos rfl, setTask_duplexAt]
    rfl

theorem Follows.report (h : Follows u d s) (hstep : s.report mask = some t) : Follows u d t := by
  obtain ⟨e, he, harmed, hallows, rfl⟩ := report_cases hstep
  refine h.same rfl (h.reachable.tail (a := DuplexAction.report mask) ?_)
  have hentry : (s.duplex d).entry = some e := he
  show (s.duplex d).report mask = _
  unfold EpollDuplex.report
  rw [hentry]
  exact if_pos ⟨harmed, hallows⟩

theorem Follows.handle (h : Follows u d s) (hstep : s.handle = some t) : Follows u d t := by
  unfold EpollSocket.handle at hstep
  split at hstep
  · cases hstep
  · rename_i mask reports hreports
    have hduplex : (s.duplex d).reports = mask :: reports := hreports
    rcases eq_of_branch hstep with ⟨hlisted, rfl⟩ | ⟨hlisted, rfl⟩
    · refine h.same rfl (h.reachable.tail (a := DuplexAction.handle) ?_)
      show (s.duplex d).handle = _
      unfold EpollDuplex.handle
      rw [hduplex]
      exact if_pos hlisted
    · refine h.same rfl (h.reachable.tail (a := DuplexAction.handle) ?_)
      show (s.duplex d).handle = _
      unfold EpollDuplex.handle
      rw [hduplex]
      exact if_neg hlisted

theorem grab_hand (h : Reachable EpollDuplex.step u (s.duplex d)) (hwakes : s.wakes ≠ 0)
    {v : EpollDuplex} (hhand : ({ s.duplex d with
      wakes := s.wakes - 1, grabbed := [s.future.map fun _ => d] } : EpollDuplex).hand 0 = some v) :
    Reachable EpollDuplex.step u v := by
  have hgrab : (s.duplex d).grab = some { s.duplex d with
      wakes := s.wakes - 1, grabbed := [s.future.map fun _ => d] } := if_neg hwakes
  exact (h.tail (a := DuplexAction.grab) hgrab).tail (a := DuplexAction.hand 0) hhand

theorem Follows.wake (h : Follows u d s) (hs : Tracked s) (hstep : s.wake = some t) :
    Follows u d t := by
  unfold EpollSocket.wake at hstep
  split at hstep
  · cases hstep
  · rename_i hwakes
    split at hstep
    · rename_i i x hbound
      obtain rfl := Option.some.inj hstep
      obtain ⟨hfuture, hx, hp⟩ := bound_eq_some hbound
      have hover : x.phase ≠ .over := by rw [hp]; exact nofun
      have hself : (s.duplex d).tasks d = ⟨.suspended, false⟩ := by
        rw [duplex, h.alone.last_eq hx hover, hp, tasks_duplexAt]
        rfl
      refine h.set hx hover rfl rfl rfl (grab_hand h.reachable hwakes ?_)
      rw [hfuture]
      show (if ((s.duplex d).tasks d).point = .suspended ∨ _ then
        some ({ s.duplex d with wakes := s.wakes - 1, grabbed := [], future := none }.setTask d
          { (s.duplex d).tasks d with queued := true }) else _) = _
      rw [hself, if_pos (Or.inl rfl)]
      exact congrArg some (setTask_duplexAt { s with wakes := s.wakes - 1, future := none } d _ _)
    · rename_i hnone
      obtain rfl := Option.some.inj hstep
      have hfuture : s.future = none := by
        rw [Option.eq_none_iff_forall_ne_some]
        intro i hi
        obtain ⟨x, hbound⟩ := hs.bound_of_future hi
        cases hnone.symm.trans hbound
      refine h.same rfl (grab_hand h.reachable hwakes ?_)
      rw [hfuture]
      unfold duplex duplexAt
      rw [hfuture]
      rfl

theorem Follows.finish (h : Follows u d s) (hstep : s.finish i = some t) : Follows u d t := by
  obtain ⟨x, hx, hp, rfl⟩ := finish_cases hstep
  have hover : x.phase ≠ .over := by rw [hp]; exact nofun
  refine h.set hx hover rfl rfl rfl (h.reachable.tail (a := DuplexAction.finish d) ?_)
  rw [duplex, h.alone.last_eq hx hover, hp]
  show (s.duplexAt d ⟨.ready, false⟩).finish d = _
  unfold EpollDuplex.finish
  rw [tasks_duplexAt, if_pos rfl]
  exact congrArg some (goTo_duplexAt { s with future := none } d _ _)

/-! ## Runs -/

/-- `Registered` says whether the event is in the epoll set. -/
structure Streaming (s : EpollSocket) : Prop where
  listener : s.listener = false
  flag : s.state.registered = s.entry.isSome
  reported : s.reports ≠ [] → s.entry.isSome = true

theorem Streaming.step (hs : Streaming s) (hstep : s.step a = some t) : Streaming t := by
  cases a with
  | start kind =>
    obtain ⟨-, rfl⟩ := eq_of_guard hstep
    exact ⟨hs.listener, hs.flag, hs.reported⟩
  | poll i res =>
    obtain ⟨x, -, -, -, ⟨-, -, rfl⟩ | ⟨-, rfl⟩ | ⟨-, rfl⟩⟩ := poll_cases hstep
    · exact ⟨hs.listener, rfl, fun _ => rfl⟩
    · exact ⟨hs.listener, (EpollDuplex.registered_afterPoll _ _ _).trans hs.flag, hs.reported⟩
    · exact ⟨hs.listener, hs.flag, hs.reported⟩
  | report mask =>
    obtain ⟨e, he, -, -, rfl⟩ := report_cases hstep
    have hflag := hs.flag
    rw [he] at hflag
    exact ⟨hs.listener, hflag, fun _ => rfl⟩
  | handle =>
    have hhandle : s.handle = some t := hstep
    unfold EpollSocket.handle at hhandle
    split at hhandle
    · cases hhandle
    · rename_i mask reports hreports
      have hentry : s.entry.isSome = true := by
        apply hs.reported
        rw [hreports]
        exact nofun
      rcases eq_of_branch hhandle with ⟨-, rfl⟩ | ⟨-, rfl⟩
      · exact ⟨hs.listener, hs.flag, fun _ => hentry⟩
      · exact ⟨hs.listener, (EpollDuplex.registered_toState mask).trans hentry.symm, fun _ => hentry⟩
  | wake =>
    have hwake : s.wake = some t := hstep
    unfold EpollSocket.wake at hwake
    split at hwake
    · cases hwake
    · split at hwake <;> obtain rfl := Option.some.inj hwake <;>
        exact ⟨hs.listener, hs.flag, hs.reported⟩
  | finish i =>
    obtain ⟨x, -, -, rfl⟩ := finish_cases hstep
    exact ⟨hs.listener, hs.flag, hs.reported⟩
  | abandon i =>
    obtain ⟨x, -, -, rfl⟩ := abandon_cases hstep
    exact ⟨hs.listener, hs.flag, hs.reported⟩

/-- Operations of a stream that are alone keep the condition for `Pending`. -/
theorem listens_of_alone (h : Alone s) (hs : Tracked s) (hlistener : s.listener = false)
    (hstep : s.step a = some t) : s.Listens a := by
  cases a with
  | poll i res =>
    obtain ⟨x, hx, -, hp, -⟩ := poll_cases hstep
    intro y hy
    obtain rfl := Option.some.inj (hx.symm.trans hy)
    refine ⟨fun haccept => ?_, fun _ => h.not_contended hx hp⟩
    cases hlistener.symm.trans ((hs.kinds x (List.mem_of_getElem? hx)).mp haccept)
  | finish i =>
    obtain ⟨x, hx, hp, -⟩ := finish_cases hstep
    exact h.not_contended hx (by rw [hp]; exact nofun)
  | _ => trivial

/-- Each step of a stream is a run of the finer model. -/
theorem Follows.step (h : Follows u d s) (hs : Tracked s) (hstream : Streaming s)
    (ha : ∀ i, a ≠ .abandon i) (hstep : s.step a = some t) : ∃ e : Direction, Follows u e t := by
  cases a with
  | start kind => exact h.start hs hstream.listener hstep
  | poll i res => exact ⟨d, h.poll hstream.flag hstep⟩
  | report mask => exact ⟨d, h.report hstep⟩
  | handle => exact ⟨d, h.handle hstep⟩
  | wake => exact ⟨d, h.wake hs hstep⟩
  | finish i => exact ⟨d, h.finish hstep⟩
  | abandon i => exact absurd rfl (ha i)

/-- What a stream does without abandoned operations, one operation at a time, is a run of the model
with both directions. -/
theorem stream_refines_duplex (writable readable : Bool) (as : List SocketAction) (s : EpollSocket)
    (hrun : run step (stream writable readable) as = some s) (has : ∀ i, .abandon i ∉ as) :
    ∃ d : Direction, s.last.kind = d.kind ∧
      Reachable EpollDuplex.step (EpollDuplex.init writable readable) (s.duplex d) := by
  have hkept : Along step (fun _ a => ∀ i, a ≠ .abandon i) (stream writable readable) as :=
    along_of_actions fun a ha i heq => has i (heq ▸ ha)
  have hinit : (stream writable readable).duplex .read = EpollDuplex.init writable readable := by
    simp only [duplex, duplexAt, EpollDuplex.init, last, stream, List.getLastD_nil, SocketPhase.task,
      Option.map_none, Function.update_eq_self]
  have hstart : Follows (EpollDuplex.init writable readable) .read (stream writable readable) :=
    ⟨⟨nofun, nofun⟩, rfl, ⟨[], congrArg some hinit.symm⟩⟩
  obtain ⟨-, -, d, h⟩ := run_invariant_along
    (I := fun s => Tracked s ∧ Streaming s ∧
      ∃ d : Direction, Follows (EpollDuplex.init writable readable) d s)
    (fun s a t ⟨hs, hstream, d, h⟩ ha hstep =>
      ⟨step_tracked hs (listens_of_alone h.alone hs hstream.listener hstep) hstep,
        hstream.step hstep, h.step hs hstream ha hstep⟩)
    ⟨New.tracked (Or.inl ⟨writable, readable, rfl⟩), ⟨rfl, rfl, fun hne => absurd rfl hne⟩, .read,
      hstart⟩ hkept hrun
  exact ⟨d, h.kind, h.reachable⟩

end EpollSocket

end Xyco.Net
