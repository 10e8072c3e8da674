import Xyco.Machine.Table
import Xyco.Net.EpollDuplex

/-!
# Proofs: a stream on epoll, in both directions

If at most one of the two operations is on its way to `Pending` or waits at a time, the event belongs
to it: `future_` is its future, the epoll entry has its interest, and there is one token on the way
around, from the armed entry over the report to the wake-up. A poll of the other operation in between
takes the event away.
-/

namespace Xyco.Net

namespace Direction

theorem forall_of {P : Direction → Prop} (d : Direction) (hd : P d) (hother : P d.other) :
    ∀ e, P e := by
  intro e
  cases d <;> cases e <;> assumption

theorem other_ne (d : Direction) : d.other ≠ d := by
  cases d <;> exact nofun

theorem other_other (d : Direction) : d.other.other = d := by
  cases d <;> rfl

end Direction

namespace EpollDuplex

open Machine Table Io

variable {s t : EpollDuplex} {a : DuplexAction} {d : Direction} {x : DuplexTask} {res : SysResult}
variable {mask : EpollMask} {p : DuplexPoint}

/-! ## The event and its token -/

def armed (s : EpollDuplex) : ℕ := if s.entry.any EpollEntry.armed then 1 else 0

/-- How many wake-ups are on the way. -/
def tokens (s : EpollDuplex) : ℕ := s.armed + s.reports.length + s.wakes + s.grabbed.length

/-- What is known at the points between the test and `Pending`. -/
def PointOk (s : EpollDuplex) (d : Direction) : Prop :=
  match (s.tasks d).point with
  | .storing first => s.entry.isSome = !first ∧ s.state.registered = !first
  | .entering first => s.entry.isSome = !first ∧ s.state.registered = !first ∧
      s.future = some d ∧ s.interest = d.interest
  | .arming first interest => s.entry.isSome = !first ∧ s.state.registered = true ∧
      s.future = some d ∧ interest = d.interest ∧ 0 < s.listed
  | _ => True

/-- The event belongs to an operation that waits. -/
def Owns (s : EpollDuplex) (d : Direction) : Prop :=
  s.tokens = 1 ∧ s.future = some d ∧ (∃ b, s.entry = some ⟨d.interest, b⟩) ∧
    ∀ g ∈ s.grabbed, g = some d

structure Alternating (s : EpollDuplex) : Prop where
  apart : ∀ d, s.Waiting d → ¬ s.Waiting d.other
  silent : (∀ d, (s.tasks d).parked = false) → s.tokens = 0
  parked : ∀ d, (s.tasks d).parked = true → s.Owns d
  points : ∀ d, s.PointOk d
  flag : (∀ d, (s.tasks d).point.working = false) → s.state.registered = s.entry.isSome
  listed : s.reports.length + s.armed ≤ s.listed
  queued : ∀ d, (s.tasks d).queued = true → (s.tasks d).point = .suspended

theorem pointOk_of_not_working (h : (s.tasks d).point.working = false) : s.PointOk d := by
  unfold PointOk
  split
  · rename_i hp
    rw [hp] at h
    cases h
  · rename_i hp
    rw [hp] at h
    cases h
  · rename_i hp
    rw [hp] at h
    cases h
  · trivial

theorem not_waiting_iff :
    ¬ s.Waiting d ↔ (s.tasks d).point.working = false ∧ (s.tasks d).parked = false := by
  rw [Waiting, not_or, Bool.not_eq_true, Bool.not_eq_true]

/-- The other operation does not wait: what is known of `d` is all there is to know. -/
theorem alternating_of_free (d : Direction) (hother : ¬ t.Waiting d.other)
    (hsilent : (t.tasks d).parked = false → t.tokens = 0)
    (hparked : (t.tasks d).parked = true → t.Owns d) (hpoint : t.PointOk d)
    (hflag : (t.tasks d).point.working = false → t.state.registered = t.entry.isSome)
    (hlisted : t.reports.length + t.armed ≤ t.listed)
    (hqueued : ∀ d, (t.tasks d).queued = true → (t.tasks d).point = .suspended) : Alternating t := by
  obtain ⟨hworking, hnot⟩ := not_waiting_iff.mp hother
  refine ⟨?_, fun h => hsilent (h d), ?_, ?_, fun h => hflag (h d), hlisted, hqueued⟩
  · refine Direction.forall_of d (fun _ => hother) fun hwaiting => ?_
    exact absurd hwaiting hother
  · refine Direction.forall_of d hparked fun h => ?_
    cases hnot.symm.trans h
  · exact Direction.forall_of d hpoint (pointOk_of_not_working hworking)

theorem tasks_setTask_self (s : EpollDuplex) (d : Direction) (x : DuplexTask) :
    (s.setTask d x).tasks d = x := by
  unfold setTask
  exact Function.update_self d x s.tasks

theorem tasks_setTask_other (s : EpollDuplex) (d : Direction) (x : DuplexTask) :
    (s.setTask d x).tasks d.other = s.tasks d.other := by
  unfold setTask
  exact Function.update_of_ne d.other_ne x s.tasks

theorem waiting_setTask_other (s : EpollDuplex) (d : Direction) (x : DuplexTask) :
    (s.setTask d x).Waiting d.other ↔ s.Waiting d.other := by
  rw [Waiting, Waiting, tasks_setTask_other]

/-- The run queue after one operation has gone on. -/
theorem Alternating.queued_setTask (hs : Alternating s) (htasks : t.tasks = s.tasks)
    (hx : x.queued = true → x.point = .suspended) :
    ∀ e, ((t.setTask d x).tasks e).queued = true → ((t.setTask d x).tasks e).point = .suspended := by
  refine Direction.forall_of d ?_ ?_
  · rw [tasks_setTask_self]
    exact hx
  · rw [tasks_setTask_other, htasks]
    exact hs.queued d.other

theorem Alternating.tokens_eq_zero (hs : Alternating s) (hd : (s.tasks d).parked = false)
    (hother : ¬ s.Waiting d.other) : s.tokens = 0 :=
  hs.silent (Direction.forall_of d hd (not_waiting_iff.mp hother).2)

theorem Alternating.exists_parked (hs : Alternating s) (htokens : s.tokens ≠ 0) :
    ∃ d, (s.tasks d).parked = true := by
  by_contra hnone
  rw [not_exists] at hnone
  exact htokens (hs.silent fun d => Bool.eq_false_iff.mpr (hnone d))

/-- An operation goes on that does not wait, before or after, and the event stays as it is. -/
theorem Alternating.of_idle (hs : Alternating s) (hd : ¬ s.Waiting d) {state : EventState}
    (hstate : state.registered = s.state.registered) (hx : x.point.working = false)
    (hx' : x.parked = false) (hqueued : x.queued = true → x.point = .suspended) :
    Alternating ({ s with state := state }.setTask d x) := by
  have hself : ({ s with state := state }.setTask d x).tasks d = x := tasks_setTask_self _ d x
  have hother := tasks_setTask_other { s with state := state } d x
  have hnot : ¬ ({ s with state := state }.setTask d x).Waiting d.other.other := by
    rw [Direction.other_other, not_waiting_iff, hself]
    exact ⟨hx, hx'⟩
  obtain ⟨hworking, hparked⟩ := not_waiting_iff.mp hd
  refine alternating_of_free d.other hnot ?_ ?_ ?_ ?_ hs.listed (hs.queued_setTask rfl hqueued)
  · rw [hother]
    exact fun h => hs.silent (Direction.forall_of d hparked h)
  · rw [hother]
    exact hs.parked d.other
  · have hpoint := hs.points d.other
    unfold PointOk at hpoint ⊢
    rw [hother]
    simp only [setTask, hstate]
    exact hpoint
  · rw [hother]
    exact fun h => hstate.trans (hs.flag (Direction.forall_of d hworking h))

/-! ## The steps of a poll -/

theorem registered_afterPoll (kind : OpKind) (state : EventState) (res : SysResult) :
    (afterPoll kind state res).registered = state.registered := by
  unfold afterPoll
  split <;> rfl

theorem decision_register (h : decision d.kind s.state res = .register) :
    s.state.registered = false := by
  unfold decision at h
  cases d <;> grind [Direction.kind]

theorem decision_reregister (h : decision d.kind s.state res = .reregister) :
    s.state.registered = true := by
  unfold decision at h
  cases d <;> grind [Direction.kind]

theorem decision_ne_pending (d : Direction) : decision d.kind s.state res ≠ .pending := by
  unfold decision
  cases d <;> grind [Direction.kind]

theorem parked_eq_false (hp : x.point ≠ .suspended) : x.parked = false := by
  rw [DuplexTask.parked, decide_eq_false hp, Bool.false_and]

/-- An operation that is polled is not in the run queue. -/
theorem Alternating.not_queued (hs : Alternating s) (hp : (s.tasks d).point ≠ .suspended) :
    (s.tasks d).queued = false :=
  Bool.eq_false_iff.mpr fun h => hp (hs.queued d h)

/-- The operation `d` goes to a point between the test and `Pending`. -/
theorem Alternating.work (hs : Alternating s) (hd : (s.tasks d).point ≠ .suspended)
    (hother : ¬ s.Waiting d.other) (hp : p.working = true) (htokens : t.tokens = s.tokens)
    (htasks : t.tasks = s.tasks) (hpoint : (t.goTo d p).PointOk d)
    (hlisted : t.reports.length + t.armed ≤ t.listed) : Alternating (t.goTo d p) := by
  have hself : (t.goTo d p).tasks d = { t.tasks d with point := p } := tasks_setTask_self t d _
  have hnot : ¬ (t.goTo d p).Waiting d.other := by
    rw [goTo, waiting_setTask_other, Waiting, htasks]
    exact hother
  have hparked : ((t.goTo d p).tasks d).parked = false := by
    rw [hself]
    apply parked_eq_false
    rintro rfl
    cases hp
  have hqueued := hs.queued_setTask (d := d) (x := { t.tasks d with point := p }) htasks fun h => by
    rw [htasks, hs.not_queued hd] at h
    cases h
  refine alternating_of_free d hnot (fun _ => ?_) (fun h => ?_) hpoint (fun h => ?_) hlisted hqueued
  · exact htokens.trans (hs.tokens_eq_zero (parked_eq_false hd) hother)
  · cases hparked.symm.trans h
  · rw [hself] at h
    cases hp.symm.trans h

theorem pointOk_storing {first : Bool} (hentry : s.entry.isSome = !first)
    (hregistered : s.state.registered = !first) : (s.goTo d (.storing first)).PointOk d := by
  unfold PointOk goTo
  rw [tasks_setTask_self]
  exact ⟨hentry, hregistered⟩

theorem pointOk_entering {first : Bool} (hentry : s.entry.isSome = !first)
    (hregistered : s.state.registered = !first) (hfuture : s.future = some d)
    (hinterest : s.interest = d.interest) : (s.goTo d (.entering first)).PointOk d := by
  unfold PointOk goTo
  rw [tasks_setTask_self]
  exact ⟨hentry, hregistered, hfuture, hinterest⟩

theorem pointOk_arming {first : Bool} {interest : Interest} (hentry : s.entry.isSome = !first)
    (hregistered : s.state.registered = true) (hfuture : s.future = some d)
    (hinterest : interest = d.interest) (hlisted : 0 < s.listed) :
    (s.goTo d (.arming first interest)).PointOk d := by
  unfold PointOk goTo
  rw [tasks_setTask_self]
  exact ⟨hentry, hregistered, hfuture, hinterest, hlisted⟩

theorem Alternating.test (hs : Alternating s) (halternates : s.Alternates (.test d res))
    (hstep : s.test d res = some t) : Alternating t := by
  unfold EpollDuplex.test at hstep
  split at hstep
  · rename_i hp
    have hne : (s.tasks d).point ≠ .suspended := by
      rw [hp]
      exact nofun
    have hworking : (s.tasks d).point.working = false := by
      rw [hp]
      rfl
    have hflag : ¬ s.Waiting d.other → s.state.registered = s.entry.isSome := fun hother =>
      hs.flag (Direction.forall_of d hworking (not_waiting_iff.mp hother).1)
    split at hstep
    · rename_i hdecision
      obtain rfl := Option.some.inj hstep
      have hother := halternates (by rw [hdecision]; exact nofun)
      have hregistered := decision_register hdecision
      have hentry := (hflag hother).symm.trans hregistered
      exact hs.work hne hother rfl rfl rfl (pointOk_storing hentry hregistered) hs.listed
    · rename_i hdecision
      obtain rfl := Option.some.inj hstep
      have hother := halternates (by rw [hdecision]; exact nofun)
      have hregistered := decision_reregister hdecision
      have hentry := (hflag hother).symm.trans hregistered
      exact hs.work hne hother rfl rfl rfl (pointOk_storing hentry hregistered) hs.listed
    · obtain rfl := Option.some.inj hstep
      have hnot : ¬ s.Waiting d := not_waiting_iff.mpr ⟨hworking, parked_eq_false hne⟩
      refine hs.of_idle hnot (registered_afterPoll _ _ _) rfl (parked_eq_false nofun) fun h => ?_
      cases (hs.not_queued hne).symm.trans h
    · rename_i hpending
      exact absurd hpending (decision_ne_pending d)
  · cases hstep

theorem Alternating.store (hs : Alternating s) (hstep : s.store d = some t) : Alternating t := by
  unfold EpollDuplex.store at hstep
  split at hstep
  · rename_i first hp
    obtain rfl := Option.some.inj hstep
    have hpoint := hs.points d
    unfold PointOk at hpoint
    rw [hp] at hpoint
    obtain ⟨hentry, hregistered⟩ := hpoint
    have hother := hs.apart d (Or.inl (by rw [hp]; rfl))
    refine hs.work (by rw [hp]; exact nofun) hother rfl rfl rfl ?_ hs.listed
    exact pointOk_entering hentry hregistered rfl rfl
  · cases hstep

theorem Alternating.enter (hs : Alternating s) (hstep : s.enter d = some t) : Alternating t := by
  unfold EpollDuplex.enter at hstep
  split at hstep
  · rename_i first hp
    obtain rfl := Option.some.inj hstep
    have hpoint := hs.points d
    unfold PointOk at hpoint
    rw [hp] at hpoint
    obtain ⟨hentry, hregistered, hfuture, hinterest⟩ := hpoint
    have hother := hs.apart d (Or.inl (by rw [hp]; rfl))
    refine hs.work (by rw [hp]; exact nofun) hother rfl rfl rfl ?_ ?_
    · refine pointOk_arming hentry ?_ hfuture hinterest (Nat.succ_pos _)
      show (s.state.registered || first) = true
      rw [hregistered]
      exact Bool.not_or_self first
    · exact Nat.le_succ_of_le hs.listed
  · cases hstep

theorem Alternating.ctl (hs : Alternating s) (hstep : s.ctl d = some t) : Alternating t := by
  unfold EpollDuplex.ctl at hstep
  split at hstep
  · rename_i first interest hp
    have hpoint := hs.points d
    unfold PointOk at hpoint
    rw [hp] at hpoint
    obtain ⟨hentry, hregistered, hfuture, rfl, hlisted⟩ := hpoint
    rw [if_pos hentry] at hstep
    obtain rfl := Option.some.inj hstep
    have hne : (s.tasks d).point ≠ .suspended := by
      rw [hp]
      exact nofun
    have hother := hs.apart d (Or.inl (by rw [hp]; rfl))
    have htokens := hs.tokens_eq_zero (parked_eq_false hne) hother
    have hself := tasks_setTask_self { s with entry := some ⟨d.interest, true⟩ } d
      { s.tasks d with point := .suspended }
    unfold tokens at htokens
    have hgrabbed : s.grabbed = [] := List.eq_nil_of_length_eq_zero (by omega)
    refine alternating_of_free d ?_ (fun h => ?_) (fun _ => ?_) ?_ (fun _ => ?_) ?_ ?_
    · rw [goTo, waiting_setTask_other]
      exact hother
    · rw [goTo, hself, DuplexTask.parked, hs.not_queued hne] at h
      cases h
    · refine ⟨?_, hfuture, ⟨true, rfl⟩, ?_⟩
      · show 1 + s.reports.length + s.wakes + s.grabbed.length = 1
        omega
      · show ∀ g ∈ s.grabbed, g = some d
        rw [hgrabbed]
        exact nofun
    · apply pointOk_of_not_working
      rw [goTo, hself]
      rfl
    · exact hregistered
    · show s.reports.length + 1 ≤ s.listed
      omega
    · exact hs.queued_setTask rfl fun _ => rfl
  · cases hstep

/-- The operation `d` neither waits nor holds a token any more. -/
theorem Alternating.rest (hs : Alternating s) (hother : ¬ s.Waiting d.other)
    (hx : x.point.working = false) (hx' : x.parked = false)
    (hqueued : x.queued = true → x.point = .suspended) (htasks : t.tasks = s.tasks)
    (htokens : t.tokens = 0) (hflag : t.state.registered = t.entry.isSome)
    (hlisted : t.reports.length + t.armed ≤ t.listed) : Alternating (t.setTask d x) := by
  refine alternating_of_free d ?_ (fun _ => htokens) (fun h => ?_) ?_ (fun _ => hflag) hlisted ?_
  · rw [waiting_setTask_other, Waiting, htasks]
    exact hother
  · rw [tasks_setTask_self] at h
    cases hx'.symm.trans h
  · apply pointOk_of_not_working
    rw [tasks_setTask_self]
    exact hx
  · exact hs.queued_setTask htasks hqueued

theorem Alternating.finish (hs : Alternating s) (hother : ¬ s.Waiting d.other)
    (hstep : s.finish d = some t) : Alternating t := by
  obtain ⟨hp, rfl⟩ := eq_of_guard hstep
  have hne : (s.tasks d).point ≠ .suspended := by
    rw [hp]
    exact nofun
  have hworking : (s.tasks d).point.working = false := by
    rw [hp]
    rfl
  refine hs.rest hother rfl (parked_eq_false (by exact nofun)) (fun h => ?_) rfl ?_ ?_ hs.listed
  · cases (hs.not_queued hne).symm.trans h
  · exact hs.tokens_eq_zero (parked_eq_false hne) hother
  · exact hs.flag (Direction.forall_of d hworking (not_waiting_iff.mp hother).1)

/-! ## The steps of a report -/

theorem point_of_parked (h : x.parked = true) : x.point = .suspended := by
  rw [DuplexTask.parked, Bool.and_eq_true] at h
  exact of_decide_eq_true h.1

theorem registered_toState (mask : EpollMask) : (toState mask).registered = true := by
  unfold toState
  split <;> rfl

/-- The token goes on, and the operation it belongs to still waits. -/
theorem Alternating.pass (hs : Alternating s) (hd : (s.tasks d).parked = true)
    (htasks : t.tasks = s.tasks) (howns : t.Owns d) (hflag : t.state.registered = true)
    (hlisted : t.reports.length + t.armed ≤ t.listed) : Alternating t := by
  have hother := hs.apart d (Or.inr hd)
  obtain ⟨-, -, ⟨b, hentry⟩, -⟩ := id howns
  refine alternating_of_free d ?_ (fun h => ?_) (fun _ => howns) ?_ (fun _ => ?_) hlisted ?_
  · rw [Waiting, htasks]
    exact hother
  · rw [htasks, hd] at h
    cases h
  · apply pointOk_of_not_working
    rw [htasks, point_of_parked hd]
    rfl
  · rw [hflag, hentry]
    rfl
  · rw [htasks]
    exact hs.queued

/-- While an operation waits, the event is registered. -/
theorem Alternating.registered (hs : Alternating s) (hd : (s.tasks d).parked = true) :
    s.state.registered = true := by
  obtain ⟨-, -, ⟨b, hentry⟩, -⟩ := hs.parked d hd
  have hworking : (s.tasks d).point.working = false := by
    rw [point_of_parked hd]
    rfl
  have hother := (not_waiting_iff.mp (hs.apart d (Or.inr hd))).1
  rw [hs.flag (Direction.forall_of d hworking hother), hentry]
  rfl

theorem Alternating.report (hs : Alternating s) (hstep : s.report mask = some t) :
    Alternating t := by
  unfold EpollDuplex.report at hstep
  split at hstep
  · cases hstep
  · rename_i e he
    obtain ⟨⟨harmed, -⟩, rfl⟩ := eq_of_guard hstep
    have hone : s.armed = 1 := by
      rw [armed, he]
      exact if_pos harmed
    obtain ⟨d, hd⟩ := hs.exists_parked (by unfold tokens; omega)
    obtain ⟨htokens, hfuture, ⟨b, hentry⟩, hgrabbed⟩ := hs.parked d hd
    have hlisted := hs.listed
    unfold tokens at htokens
    refine hs.pass hd rfl ⟨?_, hfuture, ⟨false, ?_⟩, hgrabbed⟩ (hs.registered hd) ?_
    · show 0 + (s.reports ++ [mask]).length + s.wakes + s.grabbed.length = 1
      rw [List.length_append, List.length_singleton]
      omega
    · rw [Option.some.inj (he.symm.trans hentry)]
    · show (s.reports ++ [mask]).length + 0 ≤ s.listed
      rw [List.length_append, List.length_singleton]
      omega

theorem Alternating.handle (hs : Alternating s) (hstep : s.handle = some t) : Alternating t := by
  unfold EpollDuplex.handle at hstep
  split at hstep
  · cases hstep
  · rename_i mask reports hreports
    have hlength : s.reports.length = reports.length + 1 := by
      rw [hreports, List.length_cons]
    have hlisted := hs.listed
    rw [if_neg (by omega)] at hstep
    obtain rfl := Option.some.inj hstep
    obtain ⟨d, hd⟩ := hs.exists_parked (by unfold tokens; omega)
    obtain ⟨htokens, hfuture, hentry, hgrabbed⟩ := hs.parked d hd
    unfold tokens at htokens
    refine hs.pass hd rfl ⟨?_, hfuture, hentry, hgrabbed⟩ (registered_toState mask) ?_
    · show s.armed + reports.length + (s.wakes + 1) + s.grabbed.length = 1
      omega
    · show reports.length + s.armed ≤ s.listed - 1
      omega

theorem Alternating.grab (hs : Alternating s) (hstep : s.grab = some t) : Alternating t := by
  unfold EpollDuplex.grab at hstep
  split at hstep
  · cases hstep
  · rename_i hwakes
    obtain rfl := Option.some.inj hstep
    obtain ⟨d, hd⟩ := hs.exists_parked (by unfold tokens; omega)
    obtain ⟨htokens, hfuture, hentry, hgrabbed⟩ := hs.parked d hd
    unfold tokens at htokens
    refine hs.pass hd rfl ⟨?_, hfuture, hentry, ?_⟩ (hs.registered hd) hs.listed
    · show s.armed + s.reports.length + (s.wakes - 1) + (s.grabbed ++ [s.future]).length = 1
      rw [List.length_append, List.length_singleton]
      omega
    · exact forall_mem_concat hgrabbed hfuture

/-- The operation that waits is handed to the run queue, and with it the token. -/
theorem Alternating.hand {k : ℕ} (hs : Alternating s) (hstep : s.hand k = some t) :
    Alternating t := by
  unfold EpollDuplex.hand at hstep
  cases hg : s.grabbed[k]? with
  | none =>
    rw [hg] at hstep
    cases hstep
  | some g =>
    have hmem := List.mem_of_getElem? hg
    have hpos := List.length_pos_of_mem hmem
    obtain ⟨d, hd⟩ := hs.exists_parked (by unfold tokens; omega)
    obtain ⟨htokens, -, hentry, hgrabbed⟩ := hs.parked d hd
    obtain rfl := hgrabbed g hmem
    rw [hg] at hstep
    simp only [point_of_parked hd, true_or, if_true] at hstep
    obtain rfl := Option.some.inj hstep
    unfold tokens at htokens
    refine hs.rest (hs.apart d (Or.inr hd)) rfl rfl (fun _ => rfl) rfl ?_ ?_ hs.listed
    · show s.armed + s.reports.length + s.wakes + (s.grabbed.eraseIdx k).length = 0
      have hlt := (List.getElem?_eq_some_iff.mp hg).1
      rw [List.length_eraseIdx_of_lt hlt]
      omega
    · obtain ⟨b, hentry⟩ := hentry
      show s.state.registered = s.entry.isSome
      rw [hs.registered hd, hentry]
      rfl

/-! ## Runs -/

theorem alternating_init (writable readable : Bool) : Alternating (init writable readable) := by
  refine alternating_of_free .read ?_ (fun _ => rfl) nofun trivial (fun _ => rfl) (Nat.le_refl 0) nofun
  exact nofun

theorem Alternating.step (hs : Alternating s) (halternates : s.Alternates a)
    (hstep : s.step a = some t) : Alternating t := by
  cases a with
  | start d =>
    obtain ⟨hp, rfl⟩ := eq_of_guard hstep
    have hnot : ¬ s.Waiting d := by
      rw [not_waiting_iff, hp]
      exact ⟨rfl, parked_eq_false (by rw [hp]; exact nofun)⟩
    exact hs.of_idle hnot rfl rfl (parked_eq_false nofun) nofun
  | take d =>
    obtain ⟨⟨hp, hqueued⟩, rfl⟩ := eq_of_guard hstep
    have hnot : ¬ s.Waiting d := by
      rw [not_waiting_iff, DuplexTask.parked, hp, hqueued]
      exact ⟨rfl, rfl⟩
    exact hs.of_idle hnot rfl rfl (parked_eq_false nofun) nofun
  | test d res => exact hs.test halternates hstep
  | store d => exact hs.store hstep
  | enter d => exact hs.enter hstep
  | ctl d => exact hs.ctl hstep
  | finish d => exact hs.finish halternates hstep
  | report mask => exact hs.report hstep
  | handle => exact hs.handle hstep
  | grab => exact hs.grab hstep
  | hand k => exact hs.hand hstep

theorem Alternating.woken (hs : Alternating s) : s.Woken := by
  intro d hd
  obtain ⟨htokens, hfuture, ⟨b, hentry⟩, hgrabbed⟩ := hs.parked d hd
  refine ⟨hfuture, ?_⟩
  cases b with
  | true => exact Or.inl hentry
  | false =>
    have harmed : s.armed = 0 := by
      rw [armed, hentry]
      rfl
    rw [tokens, harmed] at htokens
    by_cases hreports : s.reports = []
    · by_cases hwakes : s.wakes = 0
      · rw [hreports, hwakes, List.length_nil] at htokens
        obtain ⟨g, hg⟩ := List.length_eq_one_iff.mp (by omega : s.grabbed.length = 1)
        have hmem : g ∈ s.grabbed := by
          rw [hg]
          exact List.mem_singleton_self g
        rw [hgrabbed g hmem] at hmem
        exact Or.inr (Or.inr (Or.inr hmem))
      · exact Or.inr (Or.inr (Or.inl (Nat.pos_of_ne_zero hwakes)))
    · exact Or.inr (Or.inl hreports)

/-- If no poll goes on to `Pending`, and no future is destroyed, while the operation of the other
direction waits, then in every state each future that has returned `Pending` and is not in the run
queue is the one that the next readiness event of its direction wakes. -/
theorem no_wake_up_lost (writable readable : Bool) (as : List DuplexAction) (s : EpollDuplex)
    (hrun : run step (init writable readable) as = some s)
    (halternates : Along step Alternates (init writable readable) as) : s.Woken := by
  have hs : Alternating s := run_invariant_along (fun _ _ _ hs halt hstep => hs.step halt hstep)
    (alternating_init writable readable) halternates hrun
  exact hs.woken

/-- A read that is woken and returns, and then a write that waits. -/
theorem no_wake_up_lost_read_write :
    ∃ as s, run step (init false false) as = some s ∧ Along step Alternates (init false false) as ∧
      (s.tasks .read).point = .idle ∧ (s.tasks .write).parked = true ∧ s.Woken := by
  have hrun : ∃ as s, run step (init false false) as = some s ∧
      Along step Alternates (init false false) as ∧
      (s.tasks .read).point = .idle ∧ (s.tasks .write).parked = true := by
    refine ⟨[.start .read, .test .read .ok, .store .read, .enter .read, .ctl .read,
      .report ⟨true, false, false, false, false, false⟩, .handle, .grab, .hand 0,
      .take .read, .test .read .ok, .finish .read,
      .start .write, .test .write .ok, .store .write, .enter .write, .ctl .write], ?_⟩
    exact exists_run (by decide)
  obtain ⟨as, s, hrun, halternates, hread, hwrite⟩ := hrun
  exact ⟨as, s, hrun, halternates, hread, hwrite,
    no_wake_up_lost false false as s hrun halternates⟩

/-- A write is polled while a read waits, and takes the event over; or it returns `Ready`, and its
destructor resets `future_`. Both times the read waits, the run queue does not have it, nothing is on
the way to it, and `future_` is another. -/
theorem read_wake_up_lost :
    (∃ s, run step (init false false)
      [.start .read, .test .read .ok, .store .read, .enter .read, .ctl .read,
       .start .write, .test .write .ok, .store .write, .enter .write, .ctl .write] = some s ∧
      s.tasks .read = ⟨.suspended, false⟩ ∧ s.tasks .write = ⟨.suspended, false⟩ ∧
      s.future = some .write ∧ s.entry = some ⟨.write, true⟩ ∧
      s.reports = [] ∧ s.wakes = 0 ∧ s.grabbed = [] ∧ ¬ s.Woken) ∧
    ∃ s, run step (init true false)
      [.start .read, .test .read .ok, .store .read, .enter .read, .ctl .read,
       .start .write, .test .write .ok, .finish .write] = some s ∧
      s.tasks .read = ⟨.suspended, false⟩ ∧ s.future = none ∧ ¬ s.Woken := by
  constructor
  · refine ⟨_, rfl, rfl, rfl, rfl, rfl, rfl, rfl, rfl, fun hwoken => ?_⟩
    cases (hwoken .read rfl).1
  · refine ⟨_, rfl, rfl, rfl, fun hwoken => ?_⟩
    cases (hwoken .read rfl).1

end EpollDuplex

end Xyco.Net
