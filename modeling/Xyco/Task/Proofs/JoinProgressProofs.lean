import Xyco.Task.Proofs.JoinGuardProofs

/-!
# Proofs: `join` completes

Every entry of the run queue and every worker has some work left, and a worker that has a job can go
on with it, unless it waits for `branch_mutex_`; then the worker that holds the mutex can go on. So
from every state there is a way to the end of all branches, whatever their results are, and to the
second poll.
-/

namespace Xyco.Task

variable {n : ℕ}

/-! ## The work that is left -/

def Stage.weight (n : ℕ) : Stage → ℕ
  | .running => n + 10
  | .stored => n + 9
  | .locked => n + 8
  | .testing k _ => (n - k) + 7
  | .registering => 6
  | .leaving => 1

def Entry.weight : Entry n → ℕ
  | .branch _ => n + 11
  | .self => 3

def Job.weight : Job n Stage → ℕ
  | .poll => 2
  | .spawning => 1
  | .branch _ stage => stage.weight n

def Job.isSpawning {κ : Type*} : Job n κ → Bool
  | .spawning => true
  | _ => false

namespace Fork

variable {f f' : Fork n Stage} {w : ℕ} {k : Fin n} {stage : Stage}

/-- A branch that waits to be spawned or woken counts more than one in the run queue. -/
def weight (f : Fork n Stage) : ℕ :=
  f.pool.weight Entry.weight Job.weight + (n + 12) * (f.suspended.length + (n - f.spawned))

/-- A worker goes over to a job with less left to do. -/
theorem assign_weight {x : Job n Stage} {j : Option (Job n Stage)} (h : f.pool.job w = some x)
    (hpool : f'.pool = f.pool.assign w j) (hsuspended : f'.suspended = f.suspended)
    (hspawned : f'.spawned = f.spawned) (hlt : j.elim 0 Job.weight < x.weight) :
    f'.weight < f.weight := by
  have : (f.pool.assign w j).weight Entry.weight Job.weight + x.weight =
      f.pool.weight Entry.weight Job.weight + j.elim 0 Job.weight :=
    Pool.weight_assign (Pool.worker_of_job h) Entry.weight Job.weight j
  simp only [weight, hpool, hsuspended, hspawned]
  omega

/-- The future itself counts less than what is left to do before its registration. -/
theorem register_weight {x : Job n Stage} {j : Option (Job n Stage)} (h : f.pool.job w = some x)
    (hpool : f'.pool = (f.pool.push .self).assign w j) (hsuspended : f'.suspended = f.suspended)
    (hspawned : f'.spawned = f.spawned) (hlt : j.elim 0 Job.weight + 3 < x.weight) :
    f'.weight < f.weight := by
  have hpush : (f.pool.push .self).weight Entry.weight Job.weight =
      f.pool.weight Entry.weight Job.weight + 3 :=
    Pool.weight_push Entry.weight Job.weight f.pool .self
  have : ((f.pool.push .self).assign w j).weight Entry.weight Job.weight + x.weight =
      (f.pool.push .self).weight Entry.weight Job.weight + j.elim 0 Job.weight :=
    Pool.weight_assign (Pool.worker_of_job (p := f.pool.push .self) h) Entry.weight Job.weight j
  simp only [weight, hpool, hsuspended, hspawned]
  omega

theorem take_weight (h : f.step .running (.take w) = some f') : f'.weight < f.weight := by
  obtain ⟨pool, htake, rfl⟩ := Option.map_eq_some_iff.mp h
  have : pool.weight Entry.weight Job.weight < f.pool.weight Entry.weight Job.weight := by
    apply Pool.weight_take_lt htake
    intro e
    cases e with
    | branch i =>
      show n + 10 < n + 11
      omega
    | self =>
      show 2 < 3
      omega
  simp only [weight]
  omega

theorem spawn_weight (h : f.step .running (.spawn w) = some f') : f'.weight < f.weight := by
  obtain ⟨hlt, -, rfl⟩ := spawn_cases h
  have hpush := Pool.weight_push Entry.weight Job.weight f.pool (.branch ⟨f.spawned, hlt⟩)
  simp only [Entry.weight] at hpush
  have hleft : f.suspended.length + (n - f.spawned) =
      f.suspended.length + (n - (f.spawned + 1)) + 1 := by omega
  simp only [weight, hpush]
  rw [hleft, Nat.mul_succ]
  omega

theorem pend_weight (h : f.step .running (.pend w) = some f') : f'.weight < f.weight := by
  obtain ⟨hjob, -, rfl⟩ := pend_cases h
  exact assign_weight hjob rfl rfl rfl Nat.zero_lt_one

theorem wake_weight (h : f.step .running (.wake k) = some f') : f'.weight < f.weight := by
  obtain ⟨hmem, rfl⟩ := wake_cases h
  have hpush := Pool.weight_push Entry.weight Job.weight f.pool (.branch k)
  simp only [Entry.weight] at hpush
  have hlength := List.length_erase_of_mem hmem
  have hpos := List.length_pos_of_mem hmem
  have hleft : f.suspended.length + (n - f.spawned) =
      (f.suspended.erase k).length + (n - f.spawned) + 1 := by omega
  simp only [weight, hpush]
  rw [hleft, Nat.mul_succ]
  omega

/-! ## The first poll goes on until the last branch is spawned -/

/-- As long as a branch is left to spawn, a worker is in the first poll. -/
def Driven (f : Fork n Stage) : Prop :=
  f.ready = true → f.spawned < n → 0 < f.pool.busy Job.isSpawning

/-- A worker that does not spawn goes over to something else. -/
theorem Driven.assign {x : Job n Stage} {j : Option (Job n Stage)} (h : f.Driven)
    (hjob : f.pool.job w = some x) (hx : x.isSpawning = false) (hpool : f'.pool = f.pool.assign w j)
    (hready : f'.ready = f.ready) (hspawned : f'.spawned = f.spawned) : f'.Driven := by
  intro hr hlt
  have hpos := h (hready ▸ hr) (hspawned ▸ hlt)
  have := Pool.busy_assign (Pool.worker_of_job hjob) Job.isSpawning j
  rw [Option.any_some, hx] at this
  rw [hpool]
  simp only [Bool.false_eq_true, if_false] at this
  omega

theorem step_driven {a : ForkAction n} (h : f.Driven) (hstep : f.step .running a = some f') :
    f'.Driven := by
  cases a with
  | take w =>
    obtain ⟨pool, htake, rfl⟩ := Option.map_eq_some_iff.mp hstep
    intro hr hlt
    have : pool.busy Job.isSpawning = f.pool.busy Job.isSpawning := by
      apply Pool.busy_take htake
      intro e
      cases e <;> rfl
    exact this.symm ▸ h hr hlt
  | spawn w =>
    obtain ⟨hlt, -, rfl⟩ := spawn_cases hstep
    exact fun hr _ => h hr hlt
  | pend w =>
    obtain ⟨-, hn, rfl⟩ := pend_cases hstep
    exact fun _ hlt => absurd hlt hn
  | suspend w =>
    obtain ⟨k, hjob, rfl⟩ := suspend_cases hstep
    exact h.assign hjob rfl rfl rfl rfl
  | wake k =>
    obtain ⟨-, rfl⟩ := wake_cases hstep
    exact h

end Fork

namespace Join

open Machine

variable {T : Fin n → Type*} {E : Type*} {result : ∀ i, Except E (T i)}
variable {s s' : Join n T E} {a : JoinAction n} {w : ℕ} {k : Fin n} {stage : Stage}

theorem step_driven (h : s.fork.Driven) (hstep : s.step result a = some s') : s'.fork.Driven := by
  cases a with
  | fork a =>
    obtain ⟨fork, hfork, rfl⟩ := fork_cases hstep
    exact Fork.step_driven h hfork
  | poll w =>
    obtain ⟨hjob, ⟨-, rfl⟩ | ⟨-, rfl⟩⟩ := poll_cases hstep
    · exact h.assign hjob rfl rfl rfl rfl
    · intro _ _
      exact Pool.busy_pos (Pool.job_assign (Pool.worker_of_job hjob) _) rfl
  | branch w =>
    obtain ⟨k, stage, hjob, hcode⟩ := branch_cases hstep
    rcases runSingleBranch_cases hcode with ⟨rfl, rfl⟩ | ⟨stage', mutex, registered, -, rfl⟩ |
      ⟨rfl, rfl⟩ | ⟨rfl, rfl⟩
    · exact h.assign hjob rfl rfl rfl rfl
    · exact h.assign hjob rfl rfl rfl rfl
    · have hpushed : Fork.Driven { s.fork with pool := s.fork.pool.push .self } := h
      exact hpushed.assign (w := w) hjob rfl rfl rfl rfl
    · exact h.assign hjob rfl rfl rfl rfl

/-! ## Steps that are possible, and what they leave -/

theorem Move.weight_lt {stage' : Stage} {mutex registered : Bool}
    (h : Move s stage stage' mutex registered) : stage'.weight n < stage.weight n := by
  cases h <;> simp only [Stage.weight] <;> omega

theorem branch_weight (hstep : s.branch result w = some s') : s'.fork.weight < s.fork.weight := by
  obtain ⟨k, stage, hjob, hcode⟩ := branch_cases hstep
  rcases runSingleBranch_cases hcode with ⟨rfl, rfl⟩ | ⟨stage', mutex, registered, hmove, rfl⟩ |
    ⟨rfl, rfl⟩ | ⟨rfl, rfl⟩
  · exact Fork.assign_weight hjob rfl rfl rfl (Nat.lt_succ_self (n + 9))
  · exact Fork.assign_weight hjob rfl rfl rfl hmove.weight_lt
  · exact Fork.register_weight hjob rfl rfl rfl (by decide : 1 + 3 < 6)
  · exact Fork.assign_weight hjob rfl rfl rfl Nat.zero_lt_one

theorem poll_weight (hstep : s.poll w = some s') : s'.fork.weight < s.fork.weight := by
  obtain ⟨hjob, ⟨-, rfl⟩ | ⟨-, rfl⟩⟩ := poll_cases hstep
  · exact Fork.assign_weight hjob rfl rfl rfl Nat.zero_lt_two
  · exact Fork.assign_weight hjob rfl rfl rfl Nat.one_lt_two

/-- A worker can go on in a branch, unless it waits for the mutex. -/
theorem branch_enabled (hjob : s.fork.pool.job w = some (.branch k stage))
    (h : stage = .stored → s.branchMutex = false) :
    ∃ a s', s.step result a = some s' ∧ s'.fork.weight < s.fork.weight := by
  have hstep : s.branch result w = s.runSingleBranch result w k stage := by
    rw [branch, hjob]
  obtain ⟨s', hs'⟩ : ∃ s', s.runSingleBranch result w k stage = some s' := by
    cases stage with
    | running => exact ⟨_, rfl⟩
    | stored => exact ⟨_, by rw [runSingleBranch, h rfl, if_neg Bool.false_ne_true]⟩
    | locked => exact ⟨_, rfl⟩
    | testing m completed =>
      simp only [runSingleBranch]
      split
      · exact ⟨_, rfl⟩
      · split
        · exact ⟨_, rfl⟩
        · exact ⟨_, rfl⟩
    | registering => exact ⟨_, rfl⟩
    | leaving => exact ⟨_, rfl⟩
  exact ⟨.branch w, s', hstep.trans hs', branch_weight (hstep.trans hs')⟩

/-- A worker that has a job can go on, or the one that holds the mutex can. -/
theorem busy_enabled (hguard : Guard s) {x : Job n Stage} (hjob : s.fork.pool.job w = some x) :
    ∃ a s', s.step result a = some s' ∧ s'.fork.weight < s.fork.weight := by
  cases x with
  | poll =>
    obtain ⟨s', hs'⟩ : ∃ s', s.poll w = some s' := by
      simp only [poll, hjob]
      split
      · exact ⟨_, rfl⟩
      · exact ⟨_, rfl⟩
    exact ⟨.poll w, s', hs', poll_weight hs'⟩
  | spawning =>
    by_cases hlt : s.fork.spawned < n
    · have hs : s.fork.step .running (.spawn w) = some { s.fork with
          pool := s.fork.pool.push (.branch ⟨s.fork.spawned, hlt⟩)
          spawned := s.fork.spawned + 1 } := by
        simp only [Fork.step, Fork.spawn, hjob, dif_pos hlt]
      exact ⟨.fork (.spawn w), _, congrArg (Option.map _) hs, Fork.spawn_weight hs⟩
    · have hs : s.fork.step .running (.pend w) =
          some { s.fork with pool := s.fork.pool.assign w none } := by
        simp only [Fork.step, Fork.pend, hjob, if_neg hlt]
      exact ⟨.fork (.pend w), _, congrArg (Option.map _) hs, Fork.pend_weight hs⟩
  | branch k stage =>
    by_cases hwait : stage = .stored ∧ s.branchMutex = true
    · obtain ⟨-, hm⟩ := hwait
      have hpos : 0 < s.busy fun _ => Stage.critical := by
        have := hguard.exclusive
        rw [hm] at this
        exact this ▸ Nat.zero_lt_one
      obtain ⟨w', x, hjob', hx⟩ := Pool.exists_of_busy_pos hpos
      cases x with
      | branch k' stage' =>
        apply branch_enabled hjob'
        rintro rfl
        cases hx
      | poll => cases hx
      | spawning => cases hx
    · apply branch_enabled hjob
      intro hstored
      by_contra hm
      exact hwait ⟨hstored, by simpa using hm⟩

/-- All branches have returned, and so has the second poll. -/
structure Completed (s : Join n T E) : Prop where
  finished : ∀ i, i ∈ s.finished
  outcome : 0 < n → s.outcome.isSome = true

/-- Where no worker has a job and there is nothing to take or to wake, `join` has completed. -/
theorem completed_of_idle (haccount : Account result s) (hguard : Guard s) (hdriven : s.fork.Driven)
    (hidle : ∀ w x, s.fork.pool.job w ≠ some x) (hqueue : s.fork.pool.queue = [])
    (hsuspended : s.fork.suspended = []) : Completed s := by
  have hbusy : ∀ k, s.fork.pool.busy k = 0 := by
    intro k
    by_contra hne
    obtain ⟨w, x, hjob, -⟩ := Pool.exists_of_busy_pos (Nat.pos_of_ne_zero hne)
    exact hidle w x hjob
  have hcensus : ∀ q k, s.fork.pool.census q k = 0 := by
    intro q k
    have : s.fork.pool.workers.countP (fun j => j.any k) = 0 := hbusy k
    simp [Pool.census, hqueue, this]
  have hselves : s.fork.selves = 0 := hcensus _ _
  have hself := haccount.self
  rw [hselves] at hself
  have hready : s.fork.ready = true := by
    by_contra hready
    rw [if_neg hready] at hself
    split at hself
    · rename_i hsome
      exact hready (haccount.ready hsome)
    · omega
  have hspawned : n ≤ s.fork.spawned := by
    by_contra hlt
    have := hdriven hready (Nat.lt_of_not_le hlt)
    rw [hbusy] at this
    exact absurd this (Nat.lt_irrefl 0)
  have hfinished : ∀ i, i ∈ s.finished := by
    intro i
    have hplaces : s.fork.places i = 0 := by
      rw [Fork.places, hcensus, hsuspended]
      rfl
    have hlive : s.fork.live i = 1 := if_pos (Nat.lt_of_lt_of_le i.isLt hspawned)
    have := haccount.place i
    exact List.count_pos_iff.mp (by omega)
  refine ⟨hfinished, fun hn => ?_⟩
  have hone := registered_of_finished haccount hguard hn hfinished
  by_contra hnone
  rw [if_neg hnone, hone] at hself
  omega

theorem exists_step (haccount : Account result s) (hguard : Guard s) (hdriven : s.fork.Driven)
    (hworker : 0 < s.fork.pool.workers.length) (h : ¬ Completed s) :
    ∃ a s', s.step result a = some s' ∧ s'.fork.weight < s.fork.weight := by
  by_cases hbusy : ∃ w x, s.fork.pool.job w = some x
  · obtain ⟨w, x, hjob⟩ := hbusy
    exact busy_enabled hguard hjob
  · push Not at hbusy
    by_cases hqueue : s.fork.pool.queue = []
    · obtain ⟨k, hk⟩ : ∃ k, k ∈ s.fork.suspended := by
        apply List.exists_mem_of_ne_nil
        intro hsuspended
        exact h (completed_of_idle haccount hguard hdriven hbusy hqueue hsuspended)
      have hs : s.fork.step .running (.wake k) = some { s.fork with
          pool := s.fork.pool.push (.branch k), suspended := s.fork.suspended.erase k } := by
        simp only [Fork.step, Fork.wake, if_pos hk]
      exact ⟨.fork (.wake k), _, congrArg (Option.map _) hs, Fork.wake_weight hs⟩
    · have hw : s.fork.pool.workers[0]? = some none := by
        obtain ⟨j, hj⟩ : ∃ j, s.fork.pool.workers[0]? = some j :=
          ⟨_, List.getElem?_eq_getElem hworker⟩
        cases j with
        | none => exact hj
        | some x =>
          refine absurd ?_ (hbusy 0 x)
          rw [Pool.job, hj, Option.join_some]
      obtain ⟨pool, hpool⟩ := Pool.take_of_ne_nil (Entry.job .running) hw hqueue
      have hs : s.fork.step .running (.take 0) = some { s.fork with pool := pool } := by
        simp only [Fork.step, hpool, Option.map_some]
      exact ⟨.fork (.take 0), _, congrArg (Option.map _) hs, Fork.take_weight hs⟩

/-- The `JoinFuture` is registered once, when all results are stored, and its second poll returns
them or throws the first exception. Every run can be continued until all branches have returned and
the second poll has taken place, whichever branches fail. -/
theorem join_completes_once {others : ℕ} {as : List (JoinAction n)} (hn : 0 < n)
    (hrun : run (step result) (init others) as = some s) :
    s.registrations.length ≤ 1 ∧
      (s.registrations ≠ [] → ∀ i, s.branches i = some (result i)) ∧
      ((∀ i, i ∈ s.finished) → s.registrations.length = 1) ∧
      (∀ w s', s.fork.ready = true → s.step result (.poll w) = some s' →
        Joins result s'.outcome) ∧
      ∃ bs t, run (step result) s bs = some t ∧ (∀ i, i ∈ t.finished) ∧
        t.outcome.isSome = true := by
  obtain ⟨haccount, hguard⟩ := run_consistent hrun
  have hdriven : s.fork.Driven := run_invariant (I := fun s : Join n T E => s.fork.Driven)
    (fun _ _ _ h hstep => step_driven h hstep) (fun h => by cases h) hrun
  have hworker : 0 < s.fork.pool.workers.length := by
    rw [run_workers_length hrun]
    exact Nat.succ_pos others
  refine ⟨hguard.registrations_le, stored_of_registered haccount hguard,
    registered_of_finished haccount hguard hn, ?_, ?_⟩
  · intro w s' hready hstep
    obtain ⟨hjob, ⟨-, rfl⟩ | ⟨hfalse, -⟩⟩ := poll_cases hstep
    · exact joins (stored_of_registered haccount hguard (registered_of_poll haccount hready hjob))
    · rw [hready] at hfalse
      cases hfalse
  · have hcontinue : ∃ bs t, run (step result) s bs = some t ∧
        ((Account result t ∧ Guard t) ∧ t.fork.Driven ∧ 0 < t.fork.pool.workers.length) ∧
        Completed t := by
      refine exists_run_of_measure (fun s => s.fork.weight) ?_ ?_ ⟨⟨haccount, hguard⟩, hdriven, hworker⟩
      · rintro t a u ⟨hconsistent, hdriven, hworker⟩ hstep
        exact ⟨step_consistent hconsistent hstep, step_driven hdriven hstep,
          (step_workers_length hstep).symm ▸ hworker⟩
      · rintro t ⟨⟨haccount, hguard⟩, hdriven, hworker⟩ hnot
        exact exists_step haccount hguard hdriven hworker hnot
    obtain ⟨bs, t, ht, -, hcompleted⟩ := hcontinue
    exact ⟨bs, t, ht, hcompleted.finished, hcompleted.outcome hn⟩

/-- Two branches, the second of which fails. -/
def sample : ∀ _ : Fin 2, Except ℕ ℕ
  | 0 => .ok 7
  | 1 => .error 5

/-- The failing branch returns before the other one has stored its result. -/
def failFirst : List (JoinAction 2) :=
  [.poll 0, .fork (.spawn 0), .fork (.spawn 0), .fork (.pend 0), .fork (.take 0), .fork (.take 1),
    .branch 1, .branch 1, .branch 1, .branch 1, .branch 1, .branch 1, .branch 1]

theorem join_completes_once_run :
    ∃ s, run (step sample) (init 1) failFirst = some s ∧ s.finished = [1] ∧
      s.registrations = [] ∧ ∃ bs t, run (step sample) s bs = some t ∧ (∀ i, i ∈ t.finished) ∧
        t.outcome.isSome = true := by
  have hfail : ∃ s, run (step sample) (init 1) failFirst = some s ∧ s.finished = [1] ∧
      s.registrations = [] := exists_run (by decide)
  obtain ⟨s, hrun, hfinished, hregistrations⟩ := hfail
  obtain ⟨-, -, -, -, hrest⟩ := join_completes_once (by decide) hrun
  exact ⟨s, hrun, hfinished, hregistrations, hrest⟩

end Join

end Xyco.Task
