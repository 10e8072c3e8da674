import Xyco.Task.Proofs.JoinGuardProofs

/-!
# Proofs: the branches of `join` and its lifetime

The branch that registers the `JoinFuture` does so before it unlocks `branch_mutex_`. If the second
poll waits until no worker is in a branch, all of them have returned by then, and nothing reaches the
`JoinFuture` after it is destroyed.
-/

namespace Xyco.Task.Join

open Machine

variable {n : ℕ} {T : Fin n → Type*} {E : Type*} {result : ∀ i, Except E (T i)}
variable {s s' : Join n T E} {a : JoinAction n} {w : ℕ} {i : Fin n}

/-- A result that is stored is that of a branch that has returned, if no worker is in a branch. -/
theorem finished_of_stored (h : Account result s) (hstored : (s.branches i).isSome = true)
    (hleft : s.busy (fun _ _ => true) = 0) : i ∈ s.finished := by
  have hpast : s.busy (pastIn i) ≤ s.busy fun _ _ => true := by
    apply Pool.busy_mono
    intro x hx
    cases x with
    | branch k stage => rfl
    | poll => cases hx
    | spawning => cases hx
  have := h.stored i
  rw [if_pos hstored] at this
  exact List.count_pos_iff.mp (by omega)

theorem finished_step (haccount : Account result s) (hguard : Guard s) (hG : s.BranchesLeft a)
    (h : s.destroyed = true → ∀ i, i ∈ s.finished) (hstep : s.step result a = some s') :
    s'.destroyed = true → ∀ i, i ∈ s'.finished := by
  cases a with
  | fork a =>
    obtain ⟨fork, -, rfl⟩ := fork_cases hstep
    exact h
  | poll w =>
    obtain ⟨hjob, ⟨hready, rfl⟩ | ⟨-, rfl⟩⟩ := poll_cases hstep
    · intro _ i
      have hregistered := registered_of_poll haccount hready hjob
      have hstored := stored_of_registered haccount hguard hregistered i
      have hfinished : i ∈ s.finished :=
        finished_of_stored haccount (by rw [hstored]; rfl) (hG hready)
      exact hfinished
    · exact h
  | branch w =>
    obtain ⟨k, stage, -, hcode⟩ := branch_cases hstep
    rcases runSingleBranch_cases hcode with ⟨rfl, rfl⟩ | ⟨stage', mutex, registered, -, rfl⟩ |
      ⟨rfl, rfl⟩ | ⟨rfl, rfl⟩
    · exact h
    · exact h
    · exact h
    · exact fun hdestroyed i => List.mem_append_left _ (h hdestroyed i)

/-- As long as the second poll comes when no worker is in a branch, no branch takes a step after the
`JoinFuture` is destroyed. -/
theorem join_outlives_branches {others : ℕ} {as : List (JoinAction n)}
    (hG : Along (step result) BranchesLeft (init others) as)
    (hrun : run (step result) (init others) as = some s) (hdestroyed : s.destroyed = true) (w : ℕ) :
    s.step result (.branch w) = none := by
  have hinv : (Account result s ∧ Guard s) ∧ (s.destroyed = true → ∀ i, i ∈ s.finished) := by
    refine run_invariant_along (I := fun s => (Account result s ∧ Guard s) ∧
      (s.destroyed = true → ∀ i, i ∈ s.finished)) ?_ ?_ hG hrun
    · rintro t a u ⟨hconsistent, hfinished⟩ hleft hstep
      exact ⟨step_consistent hconsistent hstep,
        finished_step hconsistent.1 hconsistent.2 hleft hfinished hstep⟩
    · exact ⟨⟨account_init others, guard_init others⟩, fun h => by cases h⟩
  obtain ⟨⟨haccount, -⟩, hfinished⟩ := hinv
  have hidle : s.busy (fun _ _ => true) = 0 :=
    Fork.busy_eq_zero (fun i => places_of_finished haccount (hfinished hdestroyed i)) _
  by_contra hsome
  obtain ⟨s', hs'⟩ := Option.ne_none_iff_exists'.mp hsome
  obtain ⟨k, stage, hjob, -⟩ := branch_cases hs'
  have hpos : 0 < s.busy fun _ _ => true := Pool.busy_pos hjob rfl
  omega

/-- One branch, up to the point where it has registered the `JoinFuture` and another worker is about
to poll it. -/
def registerOne : List (JoinAction 1) :=
  [.poll 0, .fork (.spawn 0), .fork (.pend 0), .fork (.take 0), .branch 0, .branch 0, .branch 0,
    .branch 0, .branch 0, .branch 0, .fork (.take 1)]

theorem join_outlives_branches_run :
    ∃ s, run (step fun _ => (.ok 7 : Except ℕ ℕ)) (init 1)
        (registerOne ++ [.branch 0, .poll 1]) = some s ∧
      s.destroyed = true ∧ ∀ w, s.step (fun _ => .ok 7) (.branch w) = none := by
  have hpolled : ∃ s, run (step fun _ => (.ok 7 : Except ℕ ℕ)) (init 1)
      (registerOne ++ [.branch 0, .poll 1]) = some s ∧ s.destroyed = true := exists_run (by decide)
  obtain ⟨s, hrun, hdestroyed⟩ := hpolled
  exact ⟨s, hrun, hdestroyed, join_outlives_branches (by decide) hrun hdestroyed⟩

/-- The other worker polls the `JoinFuture` while the branch has still to unlock `branch_mutex_`. -/
theorem branch_after_destruction :
    ∃ s, run (step fun _ => (.ok 7 : Except ℕ ℕ)) (init 1) (registerOne ++ [.poll 1]) = some s ∧
      s.destroyed = true ∧ s.fork.pool.job 0 = some (.branch 0 .leaving) ∧
      (s.step (fun _ => .ok 7) (.branch 0)).isSome = true :=
  exists_run (by decide)

/-! ## One worker -/

/-- A single worker is not in a branch when it polls the `JoinFuture`. -/
theorem branchesLeft_of_one_worker (as : List (JoinAction n)) :
    Along (step result) BranchesLeft (init 0 : Join n T E) as := by
  apply along_of_forall
  intro pre a post t u _ ht hstep
  cases a with
  | fork a => trivial
  | branch w => trivial
  | poll w =>
    intro _
    have hone : t.fork.pool.workers.length = 1 := run_workers_length ht
    obtain ⟨hjob, -⟩ := poll_cases hstep
    exact Pool.busy_eq_zero_of_one hone hjob rfl

end Xyco.Task.Join
