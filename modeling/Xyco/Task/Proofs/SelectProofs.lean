import Mathlib.Data.List.Nodup
import Xyco.Task.Proofs.ForkProofs
import Xyco.Task.Select

/-!
# Proofs: `select`

The invariant is an account of the branches and of the `SelectFuture`: every branch that was spawned
is at one place, and the `SelectFuture` is registered by the first branch that finishes, so that it is
polled a second time at most once. What the second poll returns is read off the results recorded by
then.
-/

namespace Xyco.Task.Select

open Machine

variable {n : ℕ} {T : Fin n → Type*} {E : Type*} {result : ∀ i, Except E (T i)}
variable {s s' : Select n T E} {a : SelectAction n} {w : ℕ} {i : Fin n}

/-! ## What one step does -/

theorem poll_cases (h : s.poll w = some s') :
    s.fork.pool.job w = some .poll ∧
      ((s.fork.ready = true ∧ s' = { s with
          fork := { s.fork with pool := s.fork.pool.assign w none }
          self := false
          cancels := (Args.eval (cancel s.branches) s.cancels).1
          outcome := some (Args.eval (cancel s.branches) s.cancels).2 }) ∨
        (s.fork.ready = false ∧ s' = { s with
          fork := { s.fork with
            ready := true, pool := s.fork.pool.assign w (some .spawning) } })) := by
  unfold poll at h
  split at h
  · rename_i hjob
    refine ⟨hjob, ?_⟩
    rcases eq_of_branch h with hready | ⟨hready, rfl⟩
    · exact Or.inl hready
    · exact Or.inr ⟨Bool.eq_false_iff.mpr hready, rfl⟩
  · cases h

theorem finish_cases (h : s.finish result w = some s') :
    ∃ i stage, s.fork.pool.job w = some (.branch i stage) ∧
      ((s.registered = false ∧ s.self = true ∧ s' = { s with
          fork := { s.fork with pool := (s.fork.pool.push .self).assign w none }
          registered := true
          branches := Function.update s.branches i (some (result i))
          finished := s.finished ++ [i]
          registrations := s.registrations ++ [i] }) ∨
        ((s.registered = true ∨ s.self = false) ∧ s' = { s with
          fork := { s.fork with pool := s.fork.pool.assign w none }
          branches := Function.update s.branches i (some (result i))
          finished := s.finished ++ [i] })) := by
  unfold finish at h
  split at h
  · rename_i i stage hjob
    refine ⟨i, stage, hjob, ?_⟩
    by_cases hreg : s.registered = false ∧ s.self = true
    · left
      rw [runSingleBranch, if_pos hreg] at h
      exact ⟨hreg.1, hreg.2, (Option.some.inj h).symm⟩
    · right
      rw [runSingleBranch, if_neg hreg] at h
      refine ⟨?_, (Option.some.inj h).symm⟩
      rw [not_and_or] at hreg
      simpa using hreg
  · cases h

theorem abandon_cases (h : s.abandon w = some s') :
    ∃ i stage, s.fork.pool.job w = some (.branch i stage) ∧ s' = { s with
      fork := { s.fork with pool := s.fork.pool.assign w none }
      abandoned := s.abandoned ++ [i] } := by
  unfold abandon at h
  split at h
  · rename_i i stage hjob
    exact ⟨i, stage, hjob, (Option.some.inj h).symm⟩
  · cases h

theorem fork_cases {a : ForkAction n} (h : s.step result (.fork a) = some s') :
    ∃ fork, s.fork.step () a = some fork ∧ s' = { s with fork := fork } := by
  cases a with
  | spawn w =>
    simp only [step] at h
    split at h
    · obtain ⟨fork, hf, rfl⟩ := Option.map_eq_some_iff.mp h
      exact ⟨fork, hf, rfl⟩
    · cases h
  | take w | pend w | suspend w | wake i =>
    obtain ⟨fork, hf, rfl⟩ := Option.map_eq_some_iff.mp h
    exact ⟨fork, hf, rfl⟩

/-! ## The account -/

structure Account (result : ∀ i, Except E (T i)) (s : Select n T E) : Prop where
  place : ∀ i, s.fork.places i + s.finished.count i + s.abandoned.count i = s.fork.live i
  self : s.fork.selves + (if s.outcome.isSome then 1 else 0) =
    s.registrations.length + if s.fork.ready then 0 else 1
  alive : s.self = s.outcome.isNone
  ready : s.outcome.isSome = true → s.fork.ready = true
  registered : s.registered = true ↔ s.finished ≠ []
  first : s.registrations = s.finished.take 1
  recorded : ∀ i, s.branches i = if i ∈ s.finished then some (result i) else none

theorem account_init (others : ℕ) : Account result (init others : Select n T E) where
  place i := by
    show (Fork.init others).places i + 0 + 0 = (Fork.init others).live i
    rw [Fork.places_init]
    rfl
  self := by
    show (Fork.init others).selves + 0 = 0 + 1
    rw [Fork.selves_init]
  alive := rfl
  ready h := by cases h
  registered := by simp [init]
  first := rfl
  recorded i := rfl

namespace Account

theorem registrations_le (h : Account result s) : s.registrations.length ≤ 1 := by
  rw [h.first, List.length_take]
  omega

/-- A `SelectFuture` that is destroyed was registered. -/
theorem finished_ne_nil (h : Account result s) (hself : s.self = false) : s.finished ≠ [] := by
  intro hempty
  have hsome : s.outcome.isSome = true := by
    have := h.alive
    rw [hself] at this
    simpa using this
  have hcount := h.self
  rw [h.first, hempty, hsome, h.ready hsome] at hcount
  simp at hcount

/-- The second poll comes after a branch has finished. -/
theorem finished_of_poll (h : Account result s) (hready : s.fork.ready = true)
    (hjob : s.fork.pool.job w = some .poll) : s.finished ≠ [] := by
  intro hempty
  have hpos : 0 < s.fork.selves := Pool.census_pos_of_job (Pool.worker_of_job hjob) rfl _
  have hcount := h.self
  rw [h.first, hempty, hready] at hcount
  simp at hcount
  omega

theorem finished_nodup (h : Account result s) : s.finished.Nodup := by
  rw [List.nodup_iff_count_le_one]
  intro i
  have := h.place i
  have := s.fork.live_le_one i
  omega

end Account

/-- One more branch has recorded its result. -/
theorem recorded_update {branches : ∀ i, Option (Except E (T i))} {finished : List (Fin n)}
    (h : ∀ i, branches i = if i ∈ finished then some (result i) else none) (k i : Fin n) :
    Function.update branches k (some (result k)) i =
      if i ∈ finished ++ [k] then some (result i) else none := by
  by_cases hik : i = k
  · subst hik
    rw [Function.update_self, if_pos (by simp)]
  · rw [Function.update_of_ne hik, h i]
    simp [hik]

theorem count_concat (l : List (Fin n)) (k i : Fin n) :
    (l ++ [k]).count i = l.count i + if k = i then 1 else 0 := by
  simp [List.count_append, List.count_singleton]

theorem poll_account (h : Account result s) (hstep : s.poll w = some s') : Account result s' := by
  have hself := h.self
  obtain ⟨hjob, ⟨hready, rfl⟩ | ⟨hready, rfl⟩⟩ := poll_cases hstep
  · generalize hfork : ({ s.fork with pool := s.fork.pool.assign w none } : Fork n Unit) = fork
    obtain ⟨hplaces, hselves, hready', hlive, -⟩ :=
      Fork.polled hjob rfl (fun _ => rfl) (fun _ => rfl) hfork
    have hle := h.registrations_le
    refine ⟨?_, ?_, rfl, fun _ => hready'.trans hready, h.registered, h.first, h.recorded⟩
    · intro i
      rw [hplaces, hlive]
      exact h.place i
    · -- it was registered at most once, so there was no second poll before
      rw [hready] at hself
      rw [hready', hready]
      simp only [Option.isSome_some, if_true] at hself ⊢
      split at hself <;> omega
  · generalize hfork : ({ s.fork with
      ready := true, pool := s.fork.pool.assign w (some .spawning) } : Fork n Unit) = fork
    obtain ⟨hplaces, hselves, hready', hlive, -⟩ :=
      Fork.polled hjob rfl (fun _ => rfl) (fun _ => rfl) hfork
    refine ⟨?_, ?_, h.alive, fun _ => hready', h.registered, h.first, h.recorded⟩
    · intro i
      rw [hplaces, hlive]
      exact h.place i
    · rw [hready] at hself
      rw [hready']
      simp only [Bool.false_eq_true, if_true, if_false] at hself ⊢
      omega

theorem finish_account (h : Account result s) (hstep : s.finish result w = some s') :
    Account result s' := by
  obtain ⟨k, stage, hjob, ⟨hreg, hself, rfl⟩ | ⟨hreg, rfl⟩⟩ := finish_cases hstep
  · have hempty : s.finished = [] := by
      by_contra hne
      rw [h.registered.mpr hne] at hreg
      cases hreg
    generalize hfork : ({ s.fork with pool := (s.fork.pool.push .self).assign w none } :
      Fork n Unit) = fork
    obtain ⟨hplaces, hselves, hready, hlive⟩ := Fork.register_leave hjob hfork
    refine ⟨?_, ?_, h.alive, ?_, by simp, ?_, recorded_update h.recorded k⟩
    · intro i
      have hplace := h.place i
      have hend := hplaces i
      rw [hlive, count_concat]
      simp only
      omega
    · have := h.self
      rw [hselves, hready, List.length_append, List.length_singleton]
      simp only
      omega
    · rw [hready]
      exact h.ready
    · show s.registrations ++ [k] = (s.finished ++ [k]).take 1
      rw [h.first, hempty]
      rfl
  · have hne : s.finished ≠ [] := by
      rcases hreg with hreg | hreg
      · exact h.registered.mp hreg
      · exact h.finished_ne_nil hreg
    generalize hfork : ({ s.fork with pool := s.fork.pool.assign w none } : Fork n Unit) = fork
    obtain ⟨hplaces, hselves, hready, hlive, -⟩ := Fork.leave hjob hfork
    refine ⟨?_, ?_, h.alive, ?_, ?_, ?_, recorded_update h.recorded k⟩
    · intro i
      have hplace := h.place i
      have hend := hplaces i
      rw [hlive, count_concat]
      simp only
      omega
    · rw [hselves, hready]
      exact h.self
    · rw [hready]
      exact h.ready
    · constructor
      · intro _
        simp
      · intro _
        exact h.registered.mpr hne
    · show s.registrations = (s.finished ++ [k]).take 1
      rw [h.first, List.take_append_of_le_length]
      exact List.length_pos_of_ne_nil hne

theorem abandon_account (h : Account result s) (hstep : s.abandon w = some s') :
    Account result s' := by
  obtain ⟨k, stage, hjob, rfl⟩ := abandon_cases hstep
  generalize hfork : ({ s.fork with pool := s.fork.pool.assign w none } : Fork n Unit) = fork
  obtain ⟨hplaces, hselves, hready, hlive, -⟩ := Fork.leave hjob hfork
  refine ⟨?_, ?_, h.alive, ?_, h.registered, h.first, h.recorded⟩
  · intro i
    have hplace := h.place i
    have hend := hplaces i
    rw [hlive, count_concat]
    simp only
    omega
  · rw [hselves, hready]
    exact h.self
  · rw [hready]
    exact h.ready

theorem fork_account {a : ForkAction n} (h : Account result s)
    (hstep : s.step result (.fork a) = some s') : Account result s' := by
  obtain ⟨fork, hfork, rfl⟩ := fork_cases hstep
  have hready := Fork.step_ready hfork
  refine ⟨?_, ?_, h.alive, ?_, h.registered, h.first, h.recorded⟩
  · intro i
    have hplace := h.place i
    have := Fork.step_places hfork i
    simp only
    omega
  · rw [Fork.step_selves hfork, hready]
    exact h.self
  · rw [hready]
    exact h.ready

theorem step_account (h : Account result s) (hstep : s.step result a = some s') :
    Account result s' := by
  cases a with
  | fork a => exact fork_account h hstep
  | poll w => exact poll_account h hstep
  | finish w => exact finish_account h hstep
  | abandon w => exact abandon_account h hstep

theorem run_account {others : ℕ} {as : List (SelectAction n)}
    (hrun : run (step result) (init others) as = some s) : Account result s :=
  run_invariant (I := Account result) (fun _ _ _ h hstep => step_account h hstep)
    (account_init others) hrun

/-! ## What the second poll reports -/

/-- The value of a branch that has finished with one. -/
def collected (branches : ∀ i, Option (Except E (T i))) (i : Fin n) : Option (T i) :=
  match branches i with
  | some (.ok v) => some v
  | _ => none

theorem collected_eq_some (h : Account result s) {v : T i} :
    collected s.branches i = some v ↔ i ∈ s.finished ∧ result i = .ok v := by
  unfold collected
  rw [h.recorded i]
  by_cases hmem : i ∈ s.finished
  · rw [if_pos hmem]
    cases result i with
    | ok u => simp [hmem]
    | error e => simp
  · rw [if_neg hmem]
    simp [hmem]

theorem cancel_ok (h : Account result s)
    (hi : i ∈ s.finished → ∀ e, result i ≠ .error e) (cancels : List (Fin n)) :
    (cancel s.branches i cancels).2 = .ok (collected s.branches i) := by
  unfold cancel collected
  rw [h.recorded i]
  by_cases hmem : i ∈ s.finished
  · rw [if_pos hmem]
    cases hr : result i with
    | ok v => rfl
    | error e => exact absurd hr (hi hmem e)
  · rw [if_neg hmem]

theorem cancel_error (h : Account result s) (hmem : i ∈ s.finished) {e : E}
    (he : result i = .error e) (cancels : List (Fin n)) :
    (cancel s.branches i cancels).2 = .error e := by
  unfold cancel
  rw [h.recorded i, if_pos hmem, he]

theorem reports (h : Account result s) (hne : s.finished ≠ []) :
    Reports result s.finished (some (Args.eval (cancel s.branches) s.cancels).2) := by
  constructor
  · intro hok
    refine ⟨collected s.branches, ?_, fun i v => collected_eq_some h, ?_⟩
    · exact congrArg some (Args.eval_ok (fun i c => cancel_ok h (hok i) c) s.cancels)
    · obtain ⟨i, hi⟩ := List.exists_mem_of_ne_nil _ hne
      cases hr : result i with
      | ok v => exact ⟨i, v, (collected_eq_some h).mpr ⟨hi, hr⟩⟩
      | error e => exact absurd hr (hok i hi e)
  · intro i hi e he hleft
    refine congrArg some (Args.eval_error (fun c => cancel_error h hi he c) ?_ s.cancels)
    intro j hj c
    exact ⟨_, cancel_ok h (fun hmem => hleft j hmem hj) c⟩

theorem reports_of_poll {others : ℕ} {as : List (SelectAction n)}
    (hrun : run (step result) (init others) as = some s) (hready : s.fork.ready = true)
    (hstep : s.step result (.poll w) = some s') : Reports result s.finished s'.outcome := by
  have h := run_account hrun
  obtain ⟨hjob, ⟨-, rfl⟩ | ⟨hfalse, -⟩⟩ := poll_cases hstep
  · exact reports h (h.finished_of_poll hready hjob)
  · rw [hready] at hfalse
    cases hfalse

/-- The `SelectFuture` is registered once, by the first branch that finishes, and its second poll
reports the branches that have finished by then. -/
theorem select_reports_finished {others : ℕ} {as : List (SelectAction n)}
    (hrun : run (step result) (init others) as = some s) :
    s.finished.Nodup ∧ s.registrations = s.finished.take 1 ∧
      ∀ w s', s.fork.ready = true → s.step result (.poll w) = some s' →
        Reports result s.finished s'.outcome := by
  have h := run_account hrun
  exact ⟨h.finished_nodup, h.first, fun w s' hready hstep => reports_of_poll hrun hready hstep⟩

/-- Two branches, the second of which fails. -/
def sample : ∀ _ : Fin 2, Except ℕ ℕ
  | 0 => .ok 7
  | 1 => .error 5

/-- Both branches finish before the second poll, the failing one first. -/
def failFirst : List (SelectAction 2) :=
  [.poll 0, .fork (.spawn 0), .fork (.spawn 0), .fork (.pend 0), .fork (.take 0), .fork (.take 1),
    .finish 1, .finish 0, .fork (.take 0)]

theorem select_reports_finished_run :
    ∃ s s', run (step sample) (init 1) failFirst = some s ∧ s.finished = [1, 0] ∧
      s.registrations = [1] ∧ s.step sample (.poll 0) = some s' ∧
      Reports sample [1, 0] s'.outcome := by
  have hfail : ∃ s, run (step sample) (init 1) failFirst = some s ∧ s.fork.ready = true ∧
      s.finished = [1, 0] ∧ (s.step sample (.poll 0)).isSome = true := exists_run (by decide)
  obtain ⟨s, hrun, hready, hfinished, hpoll⟩ := hfail
  obtain ⟨s', hs'⟩ := Option.isSome_iff_exists.mp hpoll
  obtain ⟨-, hfirst, hreports⟩ := select_reports_finished hrun
  have hreport := hreports 0 s' hready hs'
  rw [hfinished] at hfirst hreport
  exact ⟨s, s', hrun, hfinished, hfirst, hs', hreport⟩

/-! ## The second poll and the spawning of the branches -/

/-- Branches have finished only after the last one was spawned. -/
theorem step_spawned_of_finished (hG : s.SpawnedFirst a) (hstep : s.step result a = some s')
    (h : s.finished ≠ [] → s.fork.spawned = n) : s'.finished ≠ [] → s'.fork.spawned = n := by
  cases a with
  | fork a =>
    obtain ⟨fork, hfork, rfl⟩ := fork_cases hstep
    exact fun hne => Fork.step_spawned hfork (h hne)
  | poll w =>
    obtain ⟨-, ⟨-, rfl⟩ | ⟨-, rfl⟩⟩ := poll_cases hstep
    · exact h
    · exact h
  | finish w =>
    have hn : s.fork.spawned = n := hG
    obtain ⟨k, stage, -, ⟨-, -, rfl⟩ | ⟨-, rfl⟩⟩ := finish_cases hstep
    · exact fun _ => hn
    · exact fun _ => hn
  | abandon w =>
    obtain ⟨k, stage, -, rfl⟩ := abandon_cases hstep
    exact h

/-- As long as no branch finishes before the last one is spawned, the `SelectFuture` is not polled a
second time before that either. -/
theorem second_poll_after_spawning {others : ℕ} {as : List (SelectAction n)}
    (hG : Along (step result) SpawnedFirst (init others) as)
    (hrun : run (step result) (init others) as = some s) (hready : s.fork.ready = true)
    (hstep : s.step result (.poll w) = some s') : s.fork.spawned = n := by
  have hfinished : s.finished ≠ [] → s.fork.spawned = n :=
    run_invariant_along (I := fun s => s.finished ≠ [] → s.fork.spawned = n)
      (fun _ _ _ h hG hstep => step_spawned_of_finished hG hstep h) (fun h => absurd rfl h) hG hrun
  obtain ⟨hjob, -⟩ := poll_cases hstep
  exact hfinished ((run_account hrun).finished_of_poll hready hjob)

/-- The other worker takes the first branch before the second one is spawned, and finishes it
after that. -/
def takeEarly : List (SelectAction 2) :=
  [.poll 0, .fork (.spawn 0), .fork (.take 1), .fork (.spawn 0), .finish 1, .fork (.take 1),
    .abandon 1, .fork (.take 1)]

theorem second_poll_after_spawning_run :
    ∃ s s', run (step sample) (init 1) takeEarly = some s ∧ s.step sample (.poll 1) = some s' ∧
      s.fork.spawned = 2 := by
  have htake : ∃ s, run (step sample) (init 1) takeEarly = some s ∧ s.fork.ready = true ∧
      (s.step sample (.poll 1)).isSome = true := exists_run (by decide)
  obtain ⟨s, hrun, hready, hpoll⟩ := htake
  obtain ⟨s', hs'⟩ := Option.isSome_iff_exists.mp hpoll
  exact ⟨s, s', hrun, hs', second_poll_after_spawning (by decide) hrun hready hs'⟩

/-- With two workers the second poll can come between the spawning of the first and of the second
branch: the other worker runs the first branch and then takes the `SelectFuture`. -/
theorem second_poll_while_spawning :
    ∃ s, run (step sample) (init 1) [.poll 0, .fork (.spawn 0), .fork (.take 1), .finish 1,
        .fork (.take 1)] = some s ∧
      s.fork.ready = true ∧ (s.step sample (.poll 1)).isSome = true ∧
      s.fork.pool.job 0 = some .spawning ∧ s.fork.spawned = 1 :=
  exists_run (by decide)

/-- A single worker does not leave the first poll before the last branch is spawned. -/
structure Alone (s : Select n T E) : Prop where
  one : s.fork.pool.workers.length = 1
  le : s.fork.spawned ≤ n
  busy : s.fork.spawned = n ∨ s.fork.pool.job 0 = some .spawning ∨
    s.fork.ready = false ∧ s.fork.pool.job 0 = some .poll

namespace Alone

theorem zero (h : s.Alone) {x : Job n Unit} (hjob : s.fork.pool.job w = some x) : w = 0 :=
  Pool.eq_zero_of_worker h.one (Pool.worker_of_job hjob)

/-- A worker that is idle or in a branch has left the first poll. -/
theorem spawned_of_job (h : s.Alone) {j : Option (Job n Unit)} (hjob : s.fork.pool.job 0 = j)
    (hspawning : j ≠ some .spawning) (hpoll : j ≠ some .poll) : s.fork.spawned = n := by
  rcases h.busy with hn | hj | ⟨-, hj⟩
  · exact hn
  · exact absurd (hjob.symm.trans hj) hspawning
  · exact absurd (hjob.symm.trans hj) hpoll

theorem branch (h : s.Alone) {k : Fin n} {stage : Unit}
    (hjob : s.fork.pool.job w = some (.branch k stage)) : s.fork.spawned = n := by
  obtain rfl := h.zero hjob
  exact h.spawned_of_job hjob (by simp) (by simp)

end Alone

theorem step_alone (h : s.Alone) (hstep : s.step result a = some s') : s'.Alone := by
  cases a with
  | fork a =>
    obtain ⟨fork, hfork, rfl⟩ := fork_cases hstep
    cases a with
    | take w =>
      obtain ⟨pool, htake, rfl⟩ := Option.map_eq_some_iff.mp hfork
      obtain ⟨e, queue, hw, -, -⟩ := Pool.take_cases htake
      have hidle : s.fork.pool.job 0 = none := by
        obtain rfl := Pool.eq_zero_of_worker h.one hw
        simp [Pool.job, hw]
      exact ⟨(Pool.take_workers_length htake).trans h.one, h.le,
        Or.inl (h.spawned_of_job hidle (by simp) (by simp))⟩
    | spawn w =>
      obtain ⟨hlt, hjob, rfl⟩ := Fork.spawn_cases hfork
      obtain rfl := h.zero hjob
      exact ⟨h.one, hlt, Or.inr (Or.inl hjob)⟩
    | pend w =>
      obtain ⟨-, hn, rfl⟩ := Fork.pend_cases hfork
      exact ⟨(Pool.assign_workers_length _ _ _).trans h.one, h.le,
        Or.inl (Nat.le_antisymm h.le (Nat.le_of_not_lt hn))⟩
    | suspend w =>
      obtain ⟨k, hjob, rfl⟩ := Fork.suspend_cases hfork
      exact ⟨(Pool.assign_workers_length _ _ _).trans h.one, h.le, Or.inl (h.branch hjob)⟩
    | wake k =>
      obtain ⟨-, rfl⟩ := Fork.wake_cases hfork
      exact ⟨h.one, h.le, h.busy⟩
  | poll w =>
    obtain ⟨hjob, ⟨hready, rfl⟩ | ⟨-, rfl⟩⟩ := poll_cases hstep
    · refine ⟨(Pool.assign_workers_length _ _ _).trans h.one, h.le, Or.inl ?_⟩
      obtain rfl := h.zero hjob
      rcases h.busy with hn | hj | ⟨hfalse, -⟩
      · exact hn
      · rw [hjob] at hj
        cases hj
      · rw [hready] at hfalse
        cases hfalse
    · refine ⟨(Pool.assign_workers_length _ _ _).trans h.one, h.le, Or.inr (Or.inl ?_)⟩
      obtain rfl := h.zero hjob
      exact Pool.job_assign (Pool.worker_of_job hjob) _
  | finish w =>
    obtain ⟨k, stage, hjob, ⟨-, -, rfl⟩ | ⟨-, rfl⟩⟩ := finish_cases hstep
    · exact ⟨(Pool.assign_workers_length _ _ _).trans h.one, h.le, Or.inl (h.branch hjob)⟩
    · exact ⟨(Pool.assign_workers_length _ _ _).trans h.one, h.le, Or.inl (h.branch hjob)⟩
  | abandon w =>
    obtain ⟨k, stage, hjob, rfl⟩ := abandon_cases hstep
    exact ⟨(Pool.assign_workers_length _ _ _).trans h.one, h.le, Or.inl (h.branch hjob)⟩

/-- With one worker no branch finishes before the last one is spawned. -/
theorem spawnedFirst_of_one_worker (as : List (SelectAction n)) :
    Along (step result) SpawnedFirst (init 0 : Select n T E) as := by
  apply along_of_forall
  intro pre a post t u _ ht hstep
  cases a with
  | fork a => trivial
  | poll w => trivial
  | abandon w => trivial
  | finish w =>
    have halone : t.Alone := run_invariant (I := Alone) (fun _ _ _ h hstep => step_alone h hstep)
      ⟨rfl, Nat.zero_le n, Or.inr (Or.inr ⟨rfl, rfl⟩)⟩ ht
    obtain ⟨k, stage, hjob, -⟩ := finish_cases hstep
    exact halone.branch hjob

end Xyco.Task.Select
