import Xyco.Task.Proofs.SelectProofs

/-!
# Proofs: the branches that `select` cancels

The second poll takes the branches from left to right. It cancels those that have not recorded a
result, up to the first one that has recorded an exception: that one is rethrown, and the branches to
its right are left as they are.
-/

namespace Xyco.Task.Select

open Machine

variable {n : ℕ} {T : Fin n → Type*} {E : Type*} {result : ∀ i, Except E (T i)}
variable {s s' : Select n T E} {a : SelectAction n} {w : ℕ} {i : Fin n}

/-- The branch has recorded an exception. -/
def Threw (s : Select n T E) (i : Fin n) : Prop := ∃ e, s.branches i = some (.error e)

theorem cancel_state (branches : ∀ i, Option (Except E (T i))) (i : Fin n) (cancels : List (Fin n)) :
    (cancel branches i cancels).1 = cancels ++ if (branches i).isNone then [i] else [] := by
  unfold cancel
  rcases branches i with _ | e | v
  · rfl
  · exact (List.append_nil cancels).symm
  · exact (List.append_nil cancels).symm

theorem cancel_fails_iff (s : Select n T E) (i : Fin n) (cancels : List (Fin n)) :
    (∃ e, (cancel s.branches i cancels).2 = .error e) ↔ s.Threw i := by
  unfold cancel Threw
  rcases s.branches i with _ | e | v
  · simp
  · simp
  · simp

/-- What the second poll cancels. -/
theorem mem_cancels_iff (s : Select n T E) (cancels : List (Fin n)) (i : Fin n) :
    i ∈ (Args.eval (cancel s.branches) cancels).1 ↔
      i ∈ cancels ∨ s.branches i = none ∧ ∀ j, j < i → ¬ s.Threw j := by
  rw [Args.mem_eval (cancel_state s.branches) (cancel_fails_iff s)]
  constructor
  · rintro (h | ⟨j, hj, hleft⟩)
    · exact Or.inl h
    · cases hnone : s.branches j with
      | none =>
        obtain rfl : i = j := by simpa [hnone] using hj
        exact Or.inr ⟨hnone, hleft⟩
      | some r => simp [hnone] at hj
  · rintro (h | ⟨hnone, hleft⟩)
    · exact Or.inl h
    · exact Or.inr ⟨i, by simp [hnone], hleft⟩

/-- Nothing is cancelled before the second poll. -/
theorem step_cancels (h : s.outcome = none → s.cancels = []) (hstep : s.step result a = some s') :
    s'.outcome = none → s'.cancels = [] := by
  cases a with
  | fork a =>
    obtain ⟨fork, -, rfl⟩ := fork_cases hstep
    exact h
  | poll w =>
    obtain ⟨-, ⟨-, rfl⟩ | ⟨-, rfl⟩⟩ := poll_cases hstep
    · nofun
    · exact h
  | finish w =>
    obtain ⟨k, stage, -, ⟨-, -, rfl⟩ | ⟨-, rfl⟩⟩ := finish_cases hstep
    · exact h
    · exact h
  | abandon w =>
    obtain ⟨k, stage, -, rfl⟩ := abandon_cases hstep
    exact h

/-- There is no third poll. -/
theorem Account.outcome_of_poll (h : Account result s) (hready : s.fork.ready = true)
    (hjob : s.fork.pool.job w = some .poll) : s.outcome = none := by
  have hpos : 0 < s.fork.selves := Pool.census_pos_of_job (Pool.worker_of_job hjob) rfl _
  have hcount := h.self
  have hle := h.registrations_le
  rw [hready] at hcount
  by_contra hne
  rw [Option.isSome_iff_ne_none.mpr hne] at hcount
  simp at hcount
  omega

theorem cancels_of_second_poll {others : ℕ} {as : List (SelectAction n)}
    (hrun : run (step result) (init others) as = some s) (hready : s.fork.ready = true)
    (hstep : s.step result (.poll w) = some s') :
    ∀ i, i ∈ s'.cancels ↔ s.branches i = none ∧ ∀ j, j < i → ¬ s.Threw j := by
  have hnil : s.outcome = none → s.cancels = [] :=
    run_invariant (I := fun s => s.outcome = none → s.cancels = [])
      (fun _ _ _ h hstep => step_cancels h hstep) (fun _ => rfl) hrun
  intro i
  obtain ⟨hjob, ⟨-, rfl⟩ | ⟨hfalse, -⟩⟩ := poll_cases hstep
  · have hempty := hnil ((run_account hrun).outcome_of_poll hready hjob)
    have hmem := mem_cancels_iff s s.cancels i
    simpa [hempty] using hmem
  · rw [hready] at hfalse
    cases hfalse

/-- The second poll cancels no branch with a recorded result. It cancels every branch without one
exactly if there is none to the right of a recorded exception. -/
theorem select_cancels_iff {others : ℕ} {as : List (SelectAction n)}
    (hrun : run (step result) (init others) as = some s) (hready : s.fork.ready = true)
    (hstep : s.step result (.poll w) = some s') :
    (∀ i, s.branches i ≠ none → i ∉ s'.cancels) ∧
    ((∀ i, s.branches i = none → i ∈ s'.cancels) ↔
      ∀ i j, i < j → s.Threw i → s.branches j ≠ none) := by
  have hcancels := cancels_of_second_poll hrun hready hstep
  refine ⟨fun i hsome hmem => hsome ((hcancels i).mp hmem).1, ?_, ?_⟩
  · intro hall i j hij hthrew hnone
    exact ((hcancels j).mp (hall j hnone)).2 i hij hthrew
  · intro hright j hnone
    exact (hcancels j).mpr ⟨hnone, fun i hij hthrew => hright i j hij hthrew hnone⟩

/-- The second branch throws before the first one finishes, which is cancelled. -/
theorem select_cancels_left :
    ∃ s s', run (step sample) (init 1) [.poll 0, .fork (.spawn 0), .fork (.spawn 0), .fork (.pend 0),
        .fork (.take 0), .fork (.take 1), .finish 1, .fork (.take 1)] = some s ∧
      s.step sample (.poll 1) = some s' ∧ (∀ i, s.branches i = none → i ∈ s'.cancels) ∧
      s.branches 0 = none := by
  have hsecond : ∃ s, run (step sample) (init 1) [.poll 0, .fork (.spawn 0), .fork (.spawn 0),
      .fork (.pend 0), .fork (.take 0), .fork (.take 1), .finish 1, .fork (.take 1)] = some s ∧
      s.fork.ready = true ∧ (s.step sample (.poll 1)).isSome = true ∧ s.branches 0 = none ∧
      s.branches 1 ≠ none := exists_run (by decide)
  obtain ⟨s, hrun, hready, hpoll, hnone, hsome⟩ := hsecond
  obtain ⟨s', hs'⟩ := Option.isSome_iff_exists.mp hpoll
  refine ⟨s, s', hrun, hs', ((select_cancels_iff hrun hready hs').2.mpr ?_), hnone⟩
  intro i j hij _
  obtain rfl : j = 1 := by omega
  exact hsome

/-- Two branches, the first of which fails. -/
def throwFirst : ∀ _ : Fin 2, Except ℕ ℕ
  | 0 => .error 5
  | 1 => .ok 7

/-- The first branch throws, and the second one is left running. -/
theorem select_leaves_right :
    ∃ s, run (step throwFirst) (init 1) [.poll 0, .fork (.spawn 0), .fork (.spawn 0),
        .fork (.pend 0), .fork (.take 0), .finish 0, .fork (.take 1), .fork (.suspend 1),
        .fork (.take 1), .poll 1] = some s ∧
      s.outcome = some (.error 5) ∧ s.branches 1 = none ∧ s.cancels = [] :=
  ⟨_, rfl, rfl, rfl, rfl⟩

end Xyco.Task.Select
