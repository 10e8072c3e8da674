import Xyco.Task.Proofs.JoinAccountProofs

/-!
# Proofs: what `branch_mutex_` protects

One worker at most is between the test of `registered_` and the assignment to it, so the `JoinFuture`
is registered once. A branch that stores its result after the test of another has looked at it comes
to the test later, so the last one finds all results.
-/

namespace Xyco.Task.Join

open Machine

variable {n : ℕ} {T : Fin n → Type*} {E : Type*} {result : ∀ i, Except E (T i)}
variable {s s' : Join n T E} {a : JoinAction n} {w m : ℕ} {i k : Fin n} {stage : Stage}

/-- A worker that has found the results of the first `m` branches. -/
def Seen (branches : ∀ i, Option (Except E (T i))) (j : Option (Job n Stage)) : Prop :=
  ∀ i m, j = some (.branch i (.testing m true)) →
    ∀ k : Fin n, k.val < m → (branches k).isSome = true

structure Guard (s : Join n T E) : Prop where
  exclusive : s.busy (fun _ => Stage.critical) = if s.branchMutex then 1 else 0
  once : s.busy (fun _ => Stage.isRegistering) + s.registrations.length =
    if s.registered then 1 else 0
  untested : s.registered = true → s.busy (fun _ => Stage.isTesting) = 0
  seen : ∀ j ∈ s.fork.pool.workers, Seen s.branches j
  complete : s.registered = true → ∀ i, (s.branches i).isSome = true
  pending : 0 < n → (∀ i, (s.branches i).isSome = true) →
    s.registered = true ∨ 0 < s.busy (fun _ => Stage.hopeful)

theorem guard_init (others : ℕ) : Guard (init others : Join n T E) := by
  have hidle : ∀ q, (init others : Join n T E).busy q = 0 :=
    Fork.busy_eq_zero (Fork.places_init others)
  refine ⟨hidle _, ?_, fun _ => hidle _, ?_, (fun h => by cases h), ?_⟩
  · rw [hidle]
    rfl
  · intro j hj i m hjob
    subst hjob
    simp [init, Fork.init] at hj
  · intro hn hall
    cases hall ⟨0, hn⟩

namespace Guard

theorem registrations_le (h : Guard s) : s.registrations.length ≤ 1 := by
  have := h.once
  split at this <;> omega

theorem once_of_busy {fork : Fork n Stage} (h : Guard s)
    (hsame : fork.pool.busy (Job.within fun _ => Stage.isRegistering) =
      s.busy fun _ => Stage.isRegistering) :
    fork.pool.busy (Job.within fun _ => Stage.isRegistering) + s.registrations.length =
      if s.registered then 1 else 0 := by
  rw [hsame]
  exact h.once

theorem pending_of_busy {fork : Fork n Stage} (h : Guard s)
    (hsame : fork.pool.busy (Job.within fun _ => Stage.hopeful) = s.busy fun _ => Stage.hopeful)
    (hn : 0 < n) (hall : ∀ i, (s.branches i).isSome = true) :
    s.registered = true ∨ 0 < fork.pool.busy (Job.within fun _ => Stage.hopeful) := by
  rw [hsame]
  exact h.pending hn hall

/-- A step in which no worker moves past the result of its branch. -/
theorem frame {fork : Fork n Stage} {outcome : Option (Except (JoinError E) (∀ i, T i))}
    (h : Guard s)
    (hbusy : ∀ q : Fin n → Stage → Bool, (∀ i, q i .running = false) →
      fork.pool.busy (Job.within q) = s.busy q)
    (hseen : ∀ j ∈ fork.pool.workers, Seen s.branches j) :
    Guard { s with fork := fork, outcome := outcome } := by
  have hsame : ∀ q : Fin n → Stage → Bool, (∀ i, q i .running = false) →
      ({ s with fork := fork, outcome := outcome } : Join n T E).busy q = s.busy q := hbusy
  refine ⟨?_, ?_, ?_, hseen, h.complete, ?_⟩
  · rw [hsame _ fun _ => rfl]
    exact h.exclusive
  · rw [hsame _ fun _ => rfl]
    exact h.once
  · rw [hsame _ fun _ => rfl]
    exact h.untested
  · rw [hsame _ fun _ => rfl]
    exact h.pending

end Guard

theorem fork_guard {a : ForkAction n} (h : Guard s)
    (hstep : s.step result (.fork a) = some s') : Guard s' := by
  obtain ⟨fork, hfork, rfl⟩ := fork_cases hstep
  apply h.frame (fun q hq => Fork.step_busy hfork hq)
  refine Fork.step_workers hfork ?_ ?_ h.seen
  · intro i m hjob
    cases hjob
  · intro e i m hjob
    cases e <;> cases hjob

theorem poll_guard (h : Guard s) (hstep : s.poll w = some s') : Guard s' := by
  obtain ⟨hjob, ⟨-, rfl⟩ | ⟨-, rfl⟩⟩ := poll_cases hstep
  · apply h.frame
    · intro q _
      exact Fork.busy_assign_other hjob rfl rfl rfl
    · apply Table.forall_mem_set h.seen
      intro i m hj
      cases hj
  · apply h.frame
    · intro q _
      exact Fork.busy_assign_other hjob rfl rfl rfl
    · apply Table.forall_mem_set h.seen
      intro i m hj
      cases hj

/-- A worker at a point of the mutex is the only one. -/
theorem Guard.alone (h : Guard s) (hjob : s.fork.pool.job w = some (.branch k stage))
    (hstage : stage.critical = true) :
    s.branchMutex = true ∧ s.busy (fun _ => Stage.critical) = 1 := by
  have hpos : 0 < s.busy (fun _ => Stage.critical) := Pool.busy_pos hjob hstage
  have hexclusive := h.exclusive
  cases hm : s.branchMutex with
  | true =>
    rw [hm] at hexclusive
    exact ⟨rfl, hexclusive⟩
  | false =>
    rw [hm] at hexclusive
    simp at hexclusive
    omega

theorem Guard.seen_of_job (h : Guard s)
    (hjob : s.fork.pool.job w = some (.branch k (.testing m true))) (hj : i.val < m) :
    (s.branches i).isSome = true :=
  h.seen _ (List.mem_of_getElem? (Pool.worker_of_job hjob)) k m rfl i hj

theorem busy_testing_le (s : Join n T E) :
    s.busy (fun _ => Stage.isTesting) ≤ s.busy (fun _ => Stage.critical) := by
  apply Pool.busy_mono
  intro x hx
  cases x with
  | branch i stage => cases stage <;> first | rfl | cases hx
  | poll => cases hx
  | spawning => cases hx

section Moves

variable {stage' : Stage} {fork : Fork n Stage}

theorem seen_assign (h : Guard s) (hseen : Seen s.branches (some (.branch k stage')))
    (hfork : { s.fork with pool := s.fork.pool.assign w (some (.branch k stage')) } = fork) :
    ∀ j ∈ fork.pool.workers, Seen s.branches j := by
  rw [← hfork]
  exact Table.forall_mem_set h.seen hseen

/-- A move that changes neither the mutex nor `registered_`. -/
theorem Guard.stay (h : Guard s) (hjob : s.fork.pool.job w = some (.branch k stage))
    (hfork : { s.fork with pool := s.fork.pool.assign w (some (.branch k stage')) } = fork)
    (hcritical : stage.critical = stage'.critical)
    (hregistering : stage.isRegistering = stage'.isRegistering)
    (htesting : s.registered = true → stage'.isTesting = true → stage.isTesting = true)
    (hseen : Seen s.branches (some (.branch k stage')))
    (hhopeful : (∀ i, (s.branches i).isSome = true) → s.registered = false →
      stage.hopeful = true → stage'.hopeful = true) : Guard { s with fork := fork } := by
  obtain ⟨-, -, -, -, hbusy⟩ := Fork.goOn hjob hfork
  have hworkers := seen_assign h hseen hfork
  refine ⟨?_, ?_, ?_, hworkers, h.complete, ?_⟩
  · have := hbusy fun _ => Stage.critical
    rw [hcritical] at this
    exact (Nat.add_right_cancel this).trans h.exclusive
  · have := hbusy fun _ => Stage.isRegistering
    rw [hregistering] at this
    exact h.once_of_busy (Nat.add_right_cancel this)
  · intro hreg
    have hold : s.fork.pool.busy (Job.within fun _ => Stage.isTesting) = 0 := h.untested hreg
    have := hbusy fun _ => Stage.isTesting
    show fork.pool.busy (Job.within fun _ => Stage.isTesting) = 0
    by_cases hnew : stage'.isTesting = true
    · rw [htesting hreg hnew, hnew] at this
      omega
    · rw [if_neg hnew] at this
      omega
  · intro hn hall
    rcases h.pending hn hall with hreg | hpos
    · exact Or.inl hreg
    · by_cases hreg : s.registered = true
      · exact Or.inl hreg
      · right
        have := hbusy fun _ => Stage.hopeful
        have hold : 0 < s.fork.pool.busy (Job.within fun _ => Stage.hopeful) := hpos
        show 0 < fork.pool.busy (Job.within fun _ => Stage.hopeful)
        by_cases hstage : stage.hopeful = true
        · rw [hstage, hhopeful hall (by simpa using hreg) hstage] at this
          omega
        · rw [if_neg hstage] at this
          omega

theorem lock_guard (h : Guard s) (hjob : s.fork.pool.job w = some (.branch k .stored))
    (hm : s.branchMutex = false)
    (hfork : { s.fork with pool := s.fork.pool.assign w (some (.branch k .locked)) } = fork) :
    Guard { s with fork := fork, branchMutex := true } := by
  obtain ⟨-, -, -, -, hbusy⟩ := Fork.goOn hjob hfork
  have hseen : Seen s.branches (some (.branch k .locked)) := fun i m hj => by cases hj
  have hworkers := seen_assign h hseen hfork
  refine ⟨?_, ?_, ?_, hworkers, h.complete, ?_⟩
  · have hold := h.exclusive
    have hnew : fork.pool.busy (Job.within fun _ => Stage.critical) =
        s.busy (fun _ => Stage.critical) + 1 := hbusy fun _ => Stage.critical
    rw [hm] at hold
    exact hnew.trans (by rw [hold]; rfl)
  · exact h.once_of_busy (hbusy fun _ => Stage.isRegistering)
  · intro hreg
    exact (hbusy fun _ => Stage.isTesting).trans (h.untested hreg)
  · exact h.pending_of_busy (Nat.add_right_cancel (hbusy fun _ => Stage.hopeful))

/-- The worker that has found all results is the only one in the test, and `registered_` was not set
before. -/
theorem found_guard (h : Guard s) (hjob : s.fork.pool.job w = some (.branch k (.testing m true)))
    (hm : n ≤ m)
    (hfork : { s.fork with pool := s.fork.pool.assign w (some (.branch k .registering)) } = fork) :
    Guard { s with fork := fork, registered := true } := by
  obtain ⟨-, -, -, -, hbusy⟩ := Fork.goOn hjob hfork
  obtain ⟨-, hone⟩ := h.alone hjob rfl
  have htesting : 0 < s.busy fun _ => Stage.isTesting := Pool.busy_pos hjob rfl
  have hle := s.busy_testing_le
  have hreg : s.registered = false := by
    by_contra hreg
    have := h.untested (by simpa using hreg)
    omega
  have hall : ∀ i, (s.branches i).isSome = true := fun i =>
    h.seen_of_job hjob (Nat.lt_of_lt_of_le i.isLt hm)
  have hseen : Seen s.branches (some (.branch k .registering)) := fun i m hj => by cases hj
  have hworkers := seen_assign h hseen hfork
  refine ⟨?_, ?_, ?_, hworkers, fun _ => hall, fun _ _ => Or.inl rfl⟩
  · exact (Nat.add_right_cancel (hbusy fun _ => Stage.critical)).trans h.exclusive
  · have hnew : fork.pool.busy (Job.within fun _ => Stage.isRegistering) =
        s.busy (fun _ => Stage.isRegistering) + 1 := hbusy fun _ => Stage.isRegistering
    have honce := h.once
    rw [hreg] at honce
    show fork.pool.busy (Job.within fun _ => Stage.isRegistering) + s.registrations.length = 1
    simp at honce
    simp [hnew, honce]
  · intro _
    have hnew : fork.pool.busy (Job.within fun _ => Stage.isTesting) + 1 =
        s.busy fun _ => Stage.isTesting := hbusy fun _ => Stage.isTesting
    show fork.pool.busy (Job.within fun _ => Stage.isTesting) = 0
    omega

end Moves

theorem move_guard {stage' : Stage} {mutex registered : Bool} (h : Guard s)
    (hjob : s.fork.pool.job w = some (.branch k stage))
    (hmove : Move s stage stage' mutex registered) :
    Guard { s with
      fork := { s.fork with pool := s.fork.pool.assign w (some (.branch k stage')) }
      branchMutex := mutex
      registered := registered } := by
  cases hmove with
  | lock hm => exact lock_guard h hjob hm rfl
  | found hm => exact found_guard h hjob hm rfl
  | skip hreg =>
    refine h.stay hjob rfl rfl rfl (fun _ ht => ht) (fun i m hj => by cases hj) ?_
    intro _ hfalse
    rw [hreg] at hfalse
    cases hfalse
  | test hreg =>
    refine h.stay hjob rfl rfl rfl ?_ ?_ fun _ _ _ => rfl
    · intro htrue
      rw [hreg] at htrue
      cases htrue
    · intro i m hj k hk
      cases hj
      exact absurd hk (Nat.not_lt_zero _)
  | read m completed =>
    refine h.stay hjob rfl rfl rfl (fun _ _ => rfl) ?_ ?_
    · intro i m' hj k' hk'
      simp only [Option.some.injEq, Job.branch.injEq, Stage.testing.injEq, Bool.and_eq_true] at hj
      obtain ⟨-, rfl, rfl, hm⟩ := hj
      rcases Nat.lt_succ_iff_lt_or_eq.mp hk' with hlt | heq
      · exact h.seen_of_job hjob hlt
      · rw [Fin.ext heq]
        exact hm
    · intro hall _ hhopeful
      cases completed with
      | true => rw [hall m]; rfl
      | false => cases hhopeful
  | missing hm =>
    refine h.stay hjob rfl rfl rfl (fun _ _ => rfl) (fun i m hj => by cases hj) ?_
    intro _ _ hhopeful
    cases hhopeful

/-- What is stored stays stored. -/
theorem isSome_update {branches : ∀ i, Option (Except E (T i))} (r : Except E (T k))
    (h : (branches i).isSome = true) : (Function.update branches k (some r) i).isSome = true := by
  by_cases hik : i = k
  · subst hik
    rw [Function.update_self]
    rfl
  · rw [Function.update_of_ne hik]
    exact h

theorem store_guard (h : Guard s) (hjob : s.fork.pool.job w = some (.branch k .running)) :
    Guard { s with
      fork := { s.fork with pool := s.fork.pool.assign w (some (.branch k .stored)) }
      branches := Function.update s.branches k (some (result k)) } := by
  generalize hfork : ({ s.fork with pool := s.fork.pool.assign w (some (.branch k .stored)) } :
    Fork n Stage) = fork
  obtain ⟨-, -, -, -, hbusy⟩ := Fork.goOn hjob hfork
  have hworkers : ∀ j ∈ fork.pool.workers, Seen s.branches j :=
    seen_assign h (fun i m hj => by cases hj) hfork
  refine ⟨?_, ?_, ?_, ?_, ?_, ?_⟩
  · exact (hbusy fun _ => Stage.critical).trans h.exclusive
  · exact h.once_of_busy (hbusy fun _ => Stage.isRegistering)
  · intro hreg
    exact (hbusy fun _ => Stage.isTesting).trans (h.untested hreg)
  · intro j hj i m hjob i' hlt
    exact isSome_update _ (hworkers j hj i m hjob i' hlt)
  · intro hreg i
    exact isSome_update _ (h.complete hreg i)
  · -- the branch is on its way to the test itself
    intro _ _
    right
    have hnew : fork.pool.busy (Job.within fun _ => Stage.hopeful) =
        s.busy (fun _ => Stage.hopeful) + 1 := hbusy fun _ => Stage.hopeful
    show 0 < fork.pool.busy (Job.within fun _ => Stage.hopeful)
    omega

theorem register_guard (h : Guard s) (hjob : s.fork.pool.job w = some (.branch k .registering)) :
    Guard { s with
      fork := { s.fork with
        pool := (s.fork.pool.push .self).assign w (some (.branch k .leaving)) }
      registrations := s.registrations ++ [k] } := by
  generalize hfork : ({ s.fork with
    pool := (s.fork.pool.push .self).assign w (some (.branch k .leaving)) } : Fork n Stage) = fork
  obtain ⟨-, -, -, -, hbusy⟩ := Fork.register_goOn hjob hfork
  have hworkers : ∀ j ∈ fork.pool.workers, Seen s.branches j := by
    rw [← hfork]
    exact Table.forall_mem_set h.seen fun i m hj => by cases hj
  refine ⟨?_, ?_, ?_, hworkers, h.complete, ?_⟩
  · exact (Nat.add_right_cancel (hbusy fun _ => Stage.critical)).trans h.exclusive
  · have hnew : fork.pool.busy (Job.within fun _ => Stage.isRegistering) + 1 =
        s.busy fun _ => Stage.isRegistering := hbusy fun _ => Stage.isRegistering
    have honce := h.once
    rw [← hnew] at honce
    show fork.pool.busy (Job.within fun _ => Stage.isRegistering) +
      (s.registrations ++ [k]).length = if s.registered then 1 else 0
    rw [List.length_append, List.length_singleton]
    omega
  · intro hreg
    exact (hbusy fun _ => Stage.isTesting).trans (h.untested hreg)
  · exact h.pending_of_busy (hbusy fun _ => Stage.hopeful)

theorem unlock_guard (h : Guard s) (hjob : s.fork.pool.job w = some (.branch k .leaving)) :
    Guard { s with
      fork := { s.fork with pool := s.fork.pool.assign w none }
      branchMutex := false
      finished := s.finished ++ [k] } := by
  generalize hfork : ({ s.fork with pool := s.fork.pool.assign w none } : Fork n Stage) = fork
  obtain ⟨-, -, -, -, hbusy⟩ := Fork.leave hjob hfork
  obtain ⟨-, hone⟩ := h.alone hjob rfl
  have hworkers : ∀ j ∈ fork.pool.workers, Seen s.branches j := by
    rw [← hfork]
    exact Table.forall_mem_set h.seen fun i m hj => by cases hj
  refine ⟨?_, ?_, ?_, hworkers, h.complete, ?_⟩
  · have hnew : fork.pool.busy (Job.within fun _ => Stage.critical) + 1 =
        s.busy fun _ => Stage.critical := hbusy fun _ => Stage.critical
    rw [hone] at hnew
    exact Nat.add_right_cancel hnew
  · exact h.once_of_busy (hbusy fun _ => Stage.isRegistering)
  · intro hreg
    exact (hbusy fun _ => Stage.isTesting).trans (h.untested hreg)
  · exact h.pending_of_busy (hbusy fun _ => Stage.hopeful)

/-! ## Runs -/

theorem step_consistent (h : Account result s ∧ Guard s) (hstep : s.step result a = some s') :
    Account result s' ∧ Guard s' := by
  obtain ⟨haccount, hguard⟩ := h
  cases a with
  | fork a => exact ⟨fork_account haccount hstep, fork_guard hguard hstep⟩
  | poll w =>
    exact ⟨poll_account haccount hguard.registrations_le hstep, poll_guard hguard hstep⟩
  | branch w =>
    obtain ⟨k, stage, hjob, hcode⟩ := branch_cases hstep
    rcases runSingleBranch_cases hcode with ⟨rfl, rfl⟩ | ⟨stage', mutex, registered, hmove, rfl⟩ |
      ⟨rfl, rfl⟩ | ⟨rfl, rfl⟩
    · exact ⟨store_account haccount hjob, store_guard hguard hjob⟩
    · exact ⟨move_account haccount hjob hmove, move_guard hguard hjob hmove⟩
    · exact ⟨register_account haccount hjob, register_guard hguard hjob⟩
    · exact ⟨unlock_account haccount hjob, unlock_guard hguard hjob⟩

theorem run_consistent {others : ℕ} {as : List (JoinAction n)}
    (hrun : run (step result) (init others) as = some s) : Account result s ∧ Guard s :=
  run_invariant (I := fun s => Account result s ∧ Guard s)
    (fun _ _ _ h hstep => step_consistent h hstep) ⟨account_init others, guard_init others⟩ hrun

theorem step_workers_length (hstep : s.step result a = some s') :
    s'.fork.pool.workers.length = s.fork.pool.workers.length := by
  cases a with
  | fork a =>
    obtain ⟨fork, hfork, rfl⟩ := fork_cases hstep
    exact Fork.step_workers_length hfork
  | poll w =>
    obtain ⟨-, ⟨-, rfl⟩ | ⟨-, rfl⟩⟩ := poll_cases hstep
    · exact Pool.assign_workers_length _ _ _
    · exact Pool.assign_workers_length _ _ _
  | branch w =>
    obtain ⟨k, stage, -, hcode⟩ := branch_cases hstep
    rcases runSingleBranch_cases hcode with ⟨rfl, rfl⟩ | ⟨stage', mutex, registered, -, rfl⟩ |
      ⟨rfl, rfl⟩ | ⟨rfl, rfl⟩
    · exact Pool.assign_workers_length _ _ _
    · exact Pool.assign_workers_length _ _ _
    · exact Pool.assign_workers_length _ _ _
    · exact Pool.assign_workers_length _ _ _

theorem run_workers_length {others : ℕ} {as : List (JoinAction n)}
    (hrun : run (step result) (init others) as = some s) :
    s.fork.pool.workers.length = others + 1 :=
  run_invariant (I := fun s : Join n T E => s.fork.pool.workers.length = others + 1)
    (fun _ _ _ h hstep => (step_workers_length hstep).trans h) (by simp [init, Fork.init]) hrun

/-! ## What the invariants say about a registration and about the second poll -/

/-- The `JoinFuture` is registered when all results are stored. -/
theorem stored_of_registered (haccount : Account result s) (hguard : Guard s)
    (h : s.registrations ≠ []) (i : Fin n) : s.branches i = some (result i) := by
  have hpos := List.length_pos_of_ne_nil h
  have hreg : s.registered = true := by
    by_contra hreg
    have := hguard.once
    rw [if_neg hreg] at this
    omega
  obtain ⟨r, hr⟩ := Option.isSome_iff_exists.mp (hguard.complete hreg i)
  rw [hr, haccount.recorded i r hr]

/-- The second poll comes after the registration. -/
theorem registered_of_poll (h : Account result s) (hready : s.fork.ready = true)
    (hjob : s.fork.pool.job w = some .poll) : s.registrations ≠ [] := by
  intro hempty
  have hpos : 0 < s.fork.selves := Pool.census_pos_of_job (Pool.worker_of_job hjob) rfl _
  have hcount := h.self
  rw [hempty, hready] at hcount
  simp at hcount
  omega

/-- A branch that has returned is nowhere else. -/
theorem places_of_finished (h : Account result s) (hi : i ∈ s.finished) : s.fork.places i = 0 := by
  have hpos := List.count_pos_iff.mpr hi
  have := h.place i
  have := s.fork.live_le_one i
  omega

/-- When all branches have returned, one of them has registered the `JoinFuture`. -/
theorem registered_of_finished (haccount : Account result s) (hguard : Guard s) (hn : 0 < n)
    (hall : ∀ i, i ∈ s.finished) : s.registrations.length = 1 := by
  have hidle : ∀ q, s.busy q = 0 := fun q =>
    Fork.busy_eq_zero (fun i => places_of_finished haccount (hall i)) q
  have hstored : ∀ i, (s.branches i).isSome = true := by
    intro i
    have hpos := List.count_pos_iff.mpr (hall i)
    have := haccount.stored i
    by_contra hnone
    rw [if_neg hnone] at this
    omega
  have hreg : s.registered = true := by
    rcases hguard.pending hn hstored with hreg | hpos
    · exact hreg
    · rw [hidle] at hpos
      exact absurd hpos (Nat.lt_irrefl 0)
  have := hguard.once
  rw [hidle, hreg] at this
  simpa using this

theorem joins {branches : ∀ i, Option (Except E (T i))}
    (h : ∀ i, branches i = some (result i)) :
    Joins result (some (Args.eval (extractResult branches) ()).2) := by
  have hok : ∀ i v, result i = .ok v → ∀ u, (extractResult branches i u).2 = .ok v := by
    intro i v hv u
    rw [extractResult, h i, hv]
  constructor
  · intro t ht
    exact congrArg some (Args.eval_ok (fun i u => hok i (t i) (ht i) u) ())
  · intro i e he hleft
    refine congrArg some (Args.eval_error (i := i) (fun u => ?_) ?_ ())
    · rw [extractResult, h i, he]
    · intro j hj u
      cases hr : result j with
      | ok v => exact ⟨v, hok j v hr u⟩
      | error e => exact absurd hr (hleft j hj e)

end Xyco.Task.Join
