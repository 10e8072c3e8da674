import Xyco.Runtime.Proofs.FutureStepProofs

/-!
# Proofs: coroutines and their futures

In every run, a coroutine and its `Future` point at each other, and the coroutine in `waiting_` of a
`Future` whose coroutine has started is suspended in the `co_await` of it.
-/

namespace Xyco.Runtime.Tasks

open Table

variable {V E : Type*} {s s' t : Tasks V E} {g c p q : ℕ} {f : Future V E} {st : Status}

structure Owned (s : Tasks V E) : Prop where
  own : ∀ c p, s.futureOf c = some p ↔ s.selfOf p = some c
  bound : ∀ g q, s.status g = some (.awaiting q) → q < s.futures.length
  object : ∀ p, s.pollsOf p = some true → s.selfOf p = none
  waiter : ∀ c q h, s.futureOf c = some q → s.status c ≠ some .created →
    s.status c ≠ some .done → s.waitingOf q = some h → s.status h = some (.awaiting q)

theorem Owned.unique (h : Owned s) {c d : ℕ} (hc : s.futureOf c = some p)
    (hd : s.futureOf d = some p) : c = d := by
  have hself := (h.own c p).mp hc
  rw [(h.own d p).mp hd] at hself
  exact (Option.some.inj hself).symm

theorem selfOf_eq (hf : s.futures[p]? = some f) : s.selfOf p = f.self := by
  rw [selfOf, hf, Option.bind_some]

theorem waitingOf_eq (hf : s.futures[p]? = some f) : s.waitingOf p = f.waiting := by
  rw [waitingOf, hf, Option.bind_some]

theorem lt_of_get (hf : s.futures[p]? = some f) : p < s.futures.length :=
  (List.getElem?_eq_some_iff.mp hf).1

theorem selfOf_of_le (hp : s.futures.length ≤ p) : s.selfOf p = none := by
  rw [selfOf, List.getElem?_eq_none hp, Option.bind_none]

theorem waitingOf_of_le (hp : s.futures.length ≤ p) : s.waitingOf p = none := by
  rw [waitingOf, List.getElem?_eq_none hp, Option.bind_none]

theorem lt_of_futureOf (hc : s.futureOf c = some p) : c < s.frames.length := by
  obtain ⟨frame, hframe, -⟩ := Option.bind_eq_some_iff.mp hc
  exact (List.getElem?_eq_some_iff.mp hframe).1

theorem lt_of_status (hc : s.status c = some st) : c < s.frames.length := by
  obtain ⟨frame, hframe, -⟩ := Option.map_eq_some_iff.mp hc
  exact (List.getElem?_eq_some_iff.mp hframe).1

theorem Owned.future_lt (h : Owned s) (hc : s.futureOf c = some p) : p < s.futures.length := by
  obtain ⟨f, hf, -⟩ := Option.bind_eq_some_iff.mp ((h.own c p).mp hc)
  exact lt_of_get hf

/-! ## `Owned` and the assignments -/

namespace Owned

/-- A step that leaves alone which coroutine belongs to which future. -/
theorem of_static (h : Owned s) (hs : Static s s')
    (hbound : ∀ g q, s'.status g = some (.awaiting q) → q < s.futures.length)
    (hwaiter : ∀ c q w, s.futureOf c = some q → s'.status c ≠ some .created →
      s'.status c ≠ some .done → s'.waitingOf q = some w → s'.status w = some (.awaiting q)) :
    Owned s' := by
  refine ⟨?_, ?_, ?_, ?_⟩
  · intro c p
    rw [hs.futureOf, hs.selfOf]
    exact h.own c p
  · intro g q hg
    rw [hs.length]
    exact hbound g q hg
  · intro p hp
    rw [hs.selfOf]
    exact h.object p (hs.pollsOf p ▸ hp)
  · intro c q w hc
    exact hwaiter c q w (hs.futureOf c ▸ hc)

/-- A step that changes neither the status of a coroutine nor `waiting_`. -/
theorem same (h : Owned s) (hs : Static s s') (hstatus : ∀ c, s'.status c = s.status c)
    (hwaiting : ∀ p, s'.waitingOf p = s.waitingOf p) : Owned s' := by
  apply h.of_static hs
  · intro g q hg
    exact h.bound g q (hstatus g ▸ hg)
  · intro c q w hc
    rw [hstatus, hstatus, hwaiting]
    exact h.waiter c q w hc

theorem store (h : Owned s) (p : ℕ) (r : Except (Thrown E) V) : Owned (s.store p r) :=
  h.same (static_store s p r) (fun _ => rfl) fun q => waitingOf_store s p q r

theorem clearWaited (h : Owned s) (f : Future V E) : Owned (s.clearWaited f) :=
  h.same (static_clearWaited s f) (status_clearWaited s f) (waitingOf_clearWaited s f)

/-- The coroutine of `p`, if there is one, has not started. -/
theorem suspend (h : Owned s) (hp : ∀ c, s.futureOf c = some p → s.status c = some .created)
    (self : Option ℕ) : Owned (s.suspend g p self) := by
  apply h.of_static (static_suspend s g p self)
  · intro g q hg
    rw [status_suspend] at hg
    exact h.bound g q hg
  · intro c q w hc hcreated hdone hw
    rw [status_suspend] at hcreated hdone ⊢
    rw [waitingOf_suspend] at hw
    by_cases hpq : p = q
    · exact absurd (hp c (hpq ▸ hc)) hcreated
    · rw [if_neg hpq] at hw
      exact h.waiter c q w hc hcreated hdone hw

theorem suspend_object (h : Owned s) (hp : s.selfOf p = none) : Owned (s.suspend g p none) := by
  apply h.suspend
  intro c hc
  rw [(h.own c p).mp hc] at hp
  cases hp

/-- A coroutine goes from one status to another. It must not be in `waiting_` of one that has
started, and must be awaited itself if it is started. -/
theorem setStatus (h : Owned s) (hbound : ∀ q, st = .awaiting q → q < s.futures.length)
    (hfree : ∀ q, s.status g = some (.awaiting q) → ∀ c, s.futureOf c = some q →
      s.status c = some .created ∨ s.status c = some .done)
    (hstart : s.status g = some .created ∨ s.status g = some .done → st ≠ .created → st ≠ .done →
      ∀ q w, s.futureOf g = some q → s.waitingOf q = some w →
        w ≠ g ∧ s.status w = some (.awaiting q)) : Owned (s.setStatus g st) := by
  apply h.of_static (static_setStatus s g st)
  · intro c q hc
    rw [status_setStatus] at hc
    split at hc
    · obtain ⟨old, -, hold⟩ := Option.map_eq_some_iff.mp hc
      exact hbound q hold
    · exact h.bound c q hc
  · intro c q w hc hcreated hdone hw
    have hold : w ≠ g ∧ s.status w = some (.awaiting q) := by
      by_cases hgc : g = c
      · subst hgc
        by_cases hidle : s.status g = some .created ∨ s.status g = some .done
        · have hnew : (s.setStatus g st).status g = some st :=
            status_setStatus_self (by rcases hidle with h | h <;> simp [h]) st
          rw [hnew] at hcreated hdone
          exact hstart hidle (fun h => hcreated (congrArg some h)) (fun h => hdone (congrArg some h))
            q w hc hw
        · rw [not_or] at hidle
          have hstatus := h.waiter g q w hc hidle.1 hidle.2 hw
          refine ⟨?_, hstatus⟩
          rintro rfl
          rcases hfree q hstatus w hc with hw' | hw'
          · exact hidle.1 hw'
          · exact hidle.2 hw'
      · rw [status_setStatus_ne hgc] at hcreated hdone
        have hstatus := h.waiter c q w hc hcreated hdone hw
        refine ⟨?_, hstatus⟩
        rintro rfl
        rcases hfree q hstatus c hc with hc' | hc'
        · exact hcreated hc'
        · exact hdone hc'
    rw [status_setStatus, if_neg (Ne.symm hold.1)]
    exact hold.2

/-- A running coroutine suspends or ends. -/
theorem setStatus_of_running (h : Owned s) (hg : s.status g = some .running)
    (hbound : ∀ q, st = .awaiting q → q < s.futures.length) : Owned (s.setStatus g st) := by
  apply h.setStatus hbound
  · intro q hq
    rw [hg] at hq
    cases hq
  · intro hidle
    rw [hg] at hidle
    rcases hidle with hidle | hidle <;> cases hidle

/-- A coroutine goes on after a `co_await`. -/
theorem resume (h : Owned s) (hfree : ∀ q, s.status g = some (.awaiting q) → ∀ c,
      s.futureOf c = some q → s.status c = some .created ∨ s.status c = some .done)
    (hg : s.status g ≠ some .created) (hg' : s.status g ≠ some .done)
    (hres : s.resume g p = some s') : Owned s' := by
  obtain ⟨f, -, rfl⟩ := resume_cases hres
  have hs := static_clearWaited s f
  have hcleared : Owned (s.clearWaited f) := h.clearWaited f
  have hrunning : Owned ((s.clearWaited f).setStatus g .running) := by
    apply hcleared.setStatus
    · intro q hq
      cases hq
    · intro q hq c hc
      rw [status_clearWaited] at hq ⊢
      exact hfree q hq c (hs.futureOf c ▸ hc)
    · intro hidle
      rw [status_clearWaited] at hidle
      rcases hidle with hidle | hidle
      · exact absurd hidle hg
      · exact absurd hidle hg'
  exact ⟨hrunning.own, hrunning.bound, hrunning.object, hrunning.waiter⟩

/-- A `co_await` that has its result at once. -/
theorem resume_of_running (h : Owned s) (hg : s.status g = some .running)
    (hres : s.resume g p = some s') : Owned s' := by
  apply h.resume ?_ (by rw [hg]; simp) (by rw [hg]; simp) hres
  intro q hq
  rw [hg] at hq
  cases hq

/-- The `co_await` of a coroutine that has not started: it runs, and the awaiting one is in `waiting_`
of its future. -/
theorem start (h : Owned s) (hg : s.status g = some .running) (hf : s.futures[p]? = some f)
    (hself : f.self = some c) (hc : s.status c = some .created) :
    Owned (((s.suspend g p (some c)).setStatus g (.awaiting p)).setStatus c .running) := by
  have hown : s.futureOf c = some p := (h.own c p).mpr ((selfOf_eq hf).trans hself)
  have hsuspended : Owned (s.suspend g p (some c)) := by
    apply h.suspend
    intro d hd
    rw [h.unique hd hown]
    exact hc
  have hs := static_suspend s g p (some c)
  have hawaiting : Owned ((s.suspend g p (some c)).setStatus g (.awaiting p)) := by
    apply hsuspended.setStatus_of_running (by rw [status_suspend]; exact hg)
    intro q hq
    cases hq
    rw [hs.length]
    exact lt_of_get hf
  have hgc : g ≠ c := by
    rintro rfl
    rw [hg] at hc
    cases hc
  have hcstatus : ((s.suspend g p (some c)).setStatus g (.awaiting p)).status c =
      some .created := by
    rw [status_setStatus_ne hgc, status_suspend]
    exact hc
  apply hawaiting.setStatus
  · intro q hq
    cases hq
  · intro q hq
    rw [hcstatus] at hq
    cases hq
  · intro _ _ _ q w hq hw
    have hqp : q = p := by
      rw [(static_setStatus _ g _).futureOf, hs.futureOf, hown] at hq
      exact (Option.some.inj hq).symm
    subst hqp
    have hwg : w = g := by
      have hw' : (s.suspend g q (some c)).waitingOf q = some w := hw
      rw [waitingOf_suspend, if_pos rfl, hf] at hw'
      exact (Option.some.inj hw').symm
    subst hwg
    refine ⟨hgc, ?_⟩
    exact status_setStatus_self (by rw [status_suspend, hg]; simp) _

end Owned

/-! ## The steps of coroutines keep `Owned` -/

theorem await_owned {poll : Option (Except (Thrown E) V)} (h : Owned s)
    (hstep : s.await g p poll = some s') : Owned s' := by
  obtain ⟨hg, f, hf, hcases⟩ := await_cases hstep
  rcases hcases with ⟨c, hself, hc, hres⟩ | ⟨c, hself, hc, rfl⟩ | ⟨hself, rfl⟩ | ⟨hself, v, hres⟩ |
    ⟨hself, -, e, rfl⟩
  · exact h.resume_of_running hg hres
  · exact h.start hg hf hself hc
  all_goals
    have hsuspended : Owned (s.suspend g p none) := h.suspend_object ((selfOf_eq hf).trans hself)
  · apply hsuspended.setStatus_of_running (by rw [status_suspend]; exact hg)
    intro q hq
    cases hq
    rw [(static_suspend s g p none).length]
    exact lt_of_get hf
  · refine (hsuspended.store p (.ok v)).resume_of_running ?_ hres
    rw [status_store, status_suspend]
    exact hg
  · exact ⟨hsuspended.own, hsuspended.bound, hsuspended.object, hsuspended.waiter⟩

theorem finish_owned {r : Except (Thrown E) V} (h : Owned s) (hstep : s.finish g r = some s') :
    Owned s' := by
  obtain ⟨hg, ⟨-, rfl⟩ | ⟨p, hp, ⟨-, rfl⟩ | ⟨w, hw, hstatus, hres⟩⟩⟩ := finish_cases hstep
  all_goals
    have hdone : Owned (s.setStatus g .done) :=
      h.setStatus_of_running hg fun q hq => by cases hq
  · exact hdone
  · exact hdone.store p r
  · have hwg : g ≠ w := by
      rintro rfl
      rw [hg] at hstatus
      cases hstatus
    have hwstatus : ((s.setStatus g .done).store p r).status w = some (.awaiting p) := by
      rw [status_store, status_setStatus_ne hwg]
      exact hstatus
    apply (hdone.store p r).resume ?_ (by rw [hwstatus]; simp) (by rw [hwstatus]; simp) hres
    intro q hq c hc
    rw [hwstatus] at hq
    cases hq
    -- the coroutine that is awaited is the one that has ended
    rw [(static_store _ p r).futureOf, (static_setStatus s g .done).futureOf] at hc
    obtain rfl := h.unique hc hp
    right
    rw [status_store]
    exact status_setStatus_self (by rw [hg]; simp) _

theorem complete_owned {r : Except (Thrown E) V} (h : Owned s) (hstep : s.complete p r = some s') :
    Owned s' := by
  obtain ⟨g, hpolls, -, hstatus, hres⟩ := complete_cases hstep
  apply (h.store p r).resume ?_ (by rw [status_store, hstatus]; simp)
    (by rw [status_store, hstatus]; simp) hres
  intro q hq c hc
  rw [status_store, hstatus] at hq
  cases hq
  -- an object with a `poll` of its own has no coroutine
  rw [(static_store s p r).futureOf] at hc
  have hself := (h.own c p).mp hc
  rw [h.object p hpolls] at hself
  cases hself

/-! ## New objects and coroutines -/

theorem spawn_owned (h : Owned s) : Owned s.spawn := by
  have hfuture : ∀ c, s.spawn.futureOf c = s.futureOf c := by
    intro c
    rw [futureOf, spawn, bind_concat]
    split
    · rename_i hc
      rw [futureOf, List.getElem?_eq_none (Nat.le_of_eq hc.symm), Option.bind_none]
    · rfl
  have hstatus : ∀ c, s.spawn.status c =
      if c = s.frames.length then some .running else s.status c :=
    map_concat Frame.status s.frames _
  have hold : ∀ c q, s.status c = some (.awaiting q) → s.spawn.status c = some (.awaiting q) := by
    intro c q hc
    rw [hstatus, if_neg (Nat.ne_of_lt (lt_of_status hc))]
    exact hc
  refine ⟨?_, ?_, h.object, ?_⟩
  · intro c p
    rw [hfuture]
    exact h.own c p
  · intro c q hc
    rw [hstatus] at hc
    split at hc
    · cases hc
    · exact h.bound c q hc
  · intro c q w hc hcreated hdone hw
    rw [hfuture] at hc
    rw [hstatus, if_neg (Nat.ne_of_lt (lt_of_futureOf hc))] at hcreated hdone
    exact hold w q (h.waiter c q w hc hcreated hdone hw)

theorem make_owned (h : Owned s) : Owned s.make := by
  have hself : ∀ p, s.make.selfOf p = s.selfOf p := by
    intro p
    rw [selfOf, make, bind_concat]
    split
    · rename_i hp
      exact (selfOf_of_le (Nat.le_of_eq hp.symm)).symm
    · rfl
  have hwaiting : ∀ p, s.make.waitingOf p = s.waitingOf p := by
    intro p
    rw [waitingOf, make, bind_concat]
    split
    · rename_i hp
      exact (waitingOf_of_le (Nat.le_of_eq hp.symm)).symm
    · rfl
  have hpolls : ∀ p, s.make.pollsOf p =
      if p = s.futures.length then some true else s.pollsOf p :=
    map_concat Future.polls s.futures _
  refine ⟨?_, ?_, ?_, ?_⟩
  · intro c p
    rw [hself]
    exact h.own c p
  · intro g q hg
    have hlt := h.bound g q hg
    rw [make, List.length_append]
    exact Nat.lt_of_lt_of_le hlt (Nat.le_add_right _ _)
  · intro p hp
    rw [hself]
    rw [hpolls] at hp
    split at hp
    · rename_i hlen
      exact selfOf_of_le (Nat.le_of_eq hlen.symm)
    · exact h.object p hp
  · intro c q w hc hcreated hdone hw
    rw [hwaiting] at hw
    exact h.waiter c q w hc hcreated hdone hw

theorem call_owned (h : Owned s) : Owned s.call := by
  have hfuture : ∀ c, s.call.futureOf c =
      if c = s.frames.length then some s.futures.length else s.futureOf c :=
    bind_concat Frame.future s.frames _
  have hself : ∀ p, s.call.selfOf p =
      if p = s.futures.length then some s.frames.length else s.selfOf p :=
    bind_concat Future.self s.futures _
  have hstatus : ∀ c, s.call.status c =
      if c = s.frames.length then some .created else s.status c :=
    map_concat Frame.status s.frames _
  have hwaiting : ∀ p, s.call.waitingOf p = if p = s.futures.length then none else s.waitingOf p :=
    bind_concat Future.waiting s.futures _
  have hpolls : ∀ p, s.call.pollsOf p =
      if p = s.futures.length then some false else s.pollsOf p :=
    map_concat Future.polls s.futures _
  refine ⟨?_, ?_, ?_, ?_⟩
  · intro c p
    rw [hfuture, hself]
    by_cases hc : c = s.frames.length
    · rw [if_pos hc]
      by_cases hp : p = s.futures.length
      · simp [hc, hp]
      · rw [if_neg hp]
        constructor
        · intro hp'
          exact absurd (Option.some.inj hp').symm hp
        · intro hp'
          exact absurd hc (Nat.ne_of_lt (lt_of_futureOf ((h.own c p).mpr hp')))
    · rw [if_neg hc]
      by_cases hp : p = s.futures.length
      · rw [if_pos hp]
        constructor
        · intro hp'
          exact absurd hp (Nat.ne_of_lt (h.future_lt hp'))
        · intro hc'
          exact absurd (Option.some.inj hc').symm hc
      · rw [if_neg hp]
        exact h.own c p
  · intro g q hg
    rw [hstatus] at hg
    split at hg
    · cases hg
    · have hlt := h.bound g q hg
      rw [call, List.length_append]
      exact Nat.lt_of_lt_of_le hlt (Nat.le_add_right _ _)
  · intro p hp
    rw [hpolls] at hp
    rw [hself]
    split at hp
    · cases hp
    · rename_i hne
      rw [if_neg hne]
      exact h.object p hp
  · intro c q w hc hcreated hdone hw
    rw [hfuture] at hc
    rw [hstatus] at hcreated hdone
    have hne : c ≠ s.frames.length := fun hc' => hcreated (if_pos hc')
    rw [if_neg hne] at hc hcreated hdone
    rw [hwaiting] at hw
    split at hw
    · cases hw
    · have hold := h.waiter c q w hc hcreated hdone hw
      rw [hstatus, if_neg (Nat.ne_of_lt (lt_of_status hold))]
      exact hold

/-! ## Moves -/

/-- What a move does, read through the tables. -/
structure Moved (s s' : Tasks V E) (p : ℕ) (f : Future V E) : Prop where
  length : s'.futures.length = s.futures.length + 1
  status : ∀ c, s'.status c = s.status c
  futureOf : ∀ c, s'.futureOf c = if f.self = some c then some s.futures.length else s.futureOf c
  selfOf : ∀ q, s'.selfOf q =
    if q = s.futures.length then f.self else if p = q then none else s.selfOf q
  waitingOf : ∀ q, s'.waitingOf q =
    if q = s.futures.length then f.waiting else if p = q then none else s.waitingOf q
  waitedOf : ∀ q, s'.waitedOf q =
    if q = s.futures.length then f.waited else if p = q then none else s.waitedOf q
  pollsOf : ∀ q, s'.pollsOf q = if q = s.futures.length then some f.polls else s.pollsOf q

theorem move_moved (hown : Owned s) (h : s.move p = some s') :
    ∃ f, s.futures[p]? = some f ∧ (∀ g, s.status g ≠ some (.awaiting p)) ∧ Moved s s' p f := by
  obtain ⟨f, hf, hnot, rfl⟩ := move_cases h
  refine ⟨f, hf, hnot, ?_⟩
  have hbind : ∀ (field : Future V E → Option ℕ) (new : Future V E) (q : ℕ),
      (∀ x : Future V E, field { x with self := none, waiting := none, waited := none } = none) →
      (s.futures.modify p (fun f => { f with self := none, waiting := none, waited := none }) ++
        [new])[q]?.bind field =
      if q = s.futures.length then field new else if p = q then none else s.futures[q]?.bind field := by
    intro field new q hnone
    rw [bind_concat, List.length_modify, bind_modify_eq, funext hnone]
    cases s.futures[q]? <;> rfl
  refine ⟨?_, ?_, ?_, fun q => hbind Future.self _ q fun _ => rfl,
    fun q => hbind Future.waiting _ q fun _ => rfl, fun q => hbind Future.waited _ q fun _ => rfl, ?_⟩
  · simp
  · intro c
    simp only [Tasks.status]
    split
    · exact map_modify (fun _ => by rfl) s.frames _ c
    · rfl
  · intro c
    simp only [Tasks.futureOf]
    split
    · rename_i d hd
      have hframe : s.futureOf d = some p := (hown.own d p).mpr ((selfOf_eq hf).trans hd)
      obtain ⟨frame, hframe, -⟩ := Option.bind_eq_some_iff.mp hframe
      rw [bind_modify_eq, hd]
      by_cases hdc : d = c
      · subst hdc
        rw [if_pos rfl, if_pos rfl, hframe]
        rfl
      · rw [if_neg hdc, if_neg (fun h => hdc (Option.some.inj h))]
    · rename_i hd
      rw [hd, if_neg (by simp)]
  · intro q
    show Option.map _ _ = _
    rw [map_concat, List.length_modify]
    split
    · rfl
    · exact map_modify (fun _ => by rfl) s.futures p q

theorem move_owned (h : Owned s) (hstep : s.move p = some s') : Owned s' := by
  obtain ⟨f, hf, hnot, hm⟩ := move_moved h hstep
  have hself := selfOf_eq hf
  have hp := lt_of_get hf
  refine ⟨?_, ?_, ?_, ?_⟩
  · intro c q
    rw [hm.futureOf, hm.selfOf]
    by_cases hq : q = s.futures.length
    · rw [if_pos hq]
      by_cases hc : f.self = some c
      · simp [hc, hq]
      · rw [if_neg hc]
        constructor
        · intro hc'
          exact absurd hq (Nat.ne_of_lt (h.future_lt hc'))
        · intro hc'
          exact absurd hc' hc
    · rw [if_neg hq]
      by_cases hc : f.self = some c
      · have hown : s.futureOf c = some p := (h.own c p).mpr (hself.trans hc)
        rw [if_pos hc]
        constructor
        · intro hq'
          exact absurd (Option.some.inj hq').symm hq
        · intro hq'
          split at hq'
          · cases hq'
          · rename_i hpq
            rw [← h.own, hown] at hq'
            exact absurd (Option.some.inj hq') hpq
      · rw [if_neg hc]
        split
        · rename_i hpq
          subst hpq
          rw [h.own, hself]
          exact ⟨fun hc' => absurd hc' hc, fun hc' => by cases hc'⟩
        · exact h.own c q
  · intro g q hg
    rw [hm.status] at hg
    rw [hm.length]
    exact Nat.lt_succ_of_lt (h.bound g q hg)
  · intro q hq
    rw [hm.pollsOf] at hq
    rw [hm.selfOf]
    split at hq
    · rename_i hlen
      rw [if_pos hlen, ← hself]
      apply h.object p
      rw [Tasks.pollsOf, hf]
      exact hq
    · rename_i hlen
      rw [if_neg hlen]
      split
      · rfl
      · exact h.object q hq
  · intro c q w hc hcreated hdone hw
    rw [hm.status] at hcreated hdone ⊢
    rw [hm.futureOf] at hc
    rw [hm.waitingOf] at hw
    by_cases hfc : f.self = some c
    · -- a coroutine that has started is being awaited, so its future is not moved
      have hold := h.waiter c p w ((h.own c p).mpr (hself.trans hfc)) hcreated hdone
      rw [if_pos hfc] at hc
      rw [if_pos (Option.some.inj hc).symm] at hw
      exact absurd (hold ((waitingOf_eq hf).trans hw)) (hnot w)
    · rw [if_neg hfc] at hc
      split at hw
      · rename_i hlen
        exact absurd hlen (Nat.ne_of_lt (h.future_lt hc))
      · split at hw
        · cases hw
        · exact h.waiter c q w hc hcreated hdone hw

end Xyco.Runtime.Tasks
