import Xyco.Task.Join
import Xyco.Task.Proofs.ForkProofs

/-!
# Proofs: the account of `join`

What one step of a branch does, where the branches and the `JoinFuture` are, and what is stored.
-/

namespace Xyco.Task

namespace Stage

/-- The points where a worker holds `branch_mutex_`. -/
def critical : Stage → Bool
  | .running | .stored => false
  | _ => true

/-- The points after the result of the branch is stored. -/
def past : Stage → Bool
  | .running => false
  | _ => true

def isRegistering : Stage → Bool
  | .registering => true
  | _ => false

def isTesting : Stage → Bool
  | .testing _ _ => true
  | _ => false

/-- The points from which a worker finds all results, if they are stored. -/
def hopeful : Stage → Bool
  | .stored | .locked | .testing _ true => true
  | _ => false

end Stage

namespace Join

open Machine

variable {n : ℕ} {T : Fin n → Type*} {E : Type*} {result : ∀ i, Except E (T i)}
variable {s s' : Join n T E} {a : JoinAction n} {w m : ℕ} {i k : Fin n} {stage : Stage}

/-- The number of workers at the points of `q`. -/
def busy (s : Join n T E) (q : Fin n → Stage → Bool) : ℕ := s.fork.pool.busy (Job.within q)

/-- The points of branch `i` after its result is stored. -/
def pastIn (i k : Fin n) (stage : Stage) : Bool := decide (k = i) && stage.past

theorem pastIn_past (h : stage.past = true) : pastIn i k stage = decide (k = i) := by
  rw [pastIn, h, Bool.and_true]

theorem pastIn_running : pastIn i k .running = false := Bool.and_false _

/-! ## What one step does -/

theorem poll_cases (h : s.poll w = some s') :
    s.fork.pool.job w = some .poll ∧
      ((s.fork.ready = true ∧ s' = { s with
          fork := { s.fork with pool := s.fork.pool.assign w none }
          outcome := some (Args.eval (extractResult s.branches) ()).2 }) ∨
        (s.fork.ready = false ∧ s' = { s with
          fork := { s.fork with
            ready := true, pool := s.fork.pool.assign w (some .spawning) } })) := by
  unfold poll at h
  split at h
  · rename_i hjob
    refine ⟨hjob, ?_⟩
    rcases eq_of_branch h with hready | ⟨hready, rfl⟩
    · exact Or.inl hready
    · exact Or.inr ⟨Bool.eq_false_iff.mpr hready, rfl⟩
  · cases h

theorem branch_cases (h : s.branch result w = some s') :
    ∃ i stage, s.fork.pool.job w = some (.branch i stage) ∧
      s.runSingleBranch result w i stage = some s' := by
  unfold branch at h
  split at h
  · rename_i i stage hjob
    exact ⟨i, stage, hjob, h⟩
  · cases h

theorem fork_cases {a : ForkAction n} (h : s.step result (.fork a) = some s') :
    ∃ fork, s.fork.step .running a = some fork ∧ s' = { s with fork := fork } := by
  obtain ⟨fork, hf, rfl⟩ := Option.map_eq_some_iff.mp h
  exact ⟨fork, hf, rfl⟩

/-- The moves between two points after the result is stored and before the mutex is unlocked. -/
inductive Move (s : Join n T E) : Stage → Stage → Bool → Bool → Prop where
  | lock (h : s.branchMutex = false) : Move s .stored .locked true s.registered
  | skip (h : s.registered = true) : Move s .locked .leaving s.branchMutex s.registered
  | test (h : s.registered = false) : Move s .locked (.testing 0 true) s.branchMutex s.registered
  | read (m : Fin n) (completed : Bool) : Move s (.testing m completed)
      (.testing (m + 1) (completed && (s.branches m).isSome)) s.branchMutex s.registered
  | found {m : ℕ} (h : n ≤ m) : Move s (.testing m true) .registering s.branchMutex true
  | missing {m : ℕ} (h : n ≤ m) : Move s (.testing m false) .leaving s.branchMutex s.registered

theorem runSingleBranch_cases (h : s.runSingleBranch result w k stage = some s') :
    (stage = .running ∧ s' = { s with
        fork := { s.fork with pool := s.fork.pool.assign w (some (.branch k .stored)) }
        branches := Function.update s.branches k (some (result k)) }) ∨
      (∃ stage' mutex registered, Move s stage stage' mutex registered ∧ s' = { s with
        fork := { s.fork with pool := s.fork.pool.assign w (some (.branch k stage')) }
        branchMutex := mutex
        registered := registered }) ∨
      (stage = .registering ∧ s' = { s with
        fork := { s.fork with
          pool := (s.fork.pool.push .self).assign w (some (.branch k .leaving)) }
        registrations := s.registrations ++ [k] }) ∨
      (stage = .leaving ∧ s' = { s with
        fork := { s.fork with pool := s.fork.pool.assign w none }
        branchMutex := false
        finished := s.finished ++ [k] }) := by
  cases stage with
  | running => exact Or.inl ⟨rfl, (Option.some.inj h).symm⟩
  | stored =>
    simp only [runSingleBranch] at h
    split at h
    · cases h
    · rename_i hm
      exact Or.inr (Or.inl ⟨_, _, _, .lock (by simpa using hm), (Option.some.inj h).symm⟩)
  | locked =>
    refine Or.inr (Or.inl ?_)
    obtain rfl := Option.some.inj h
    by_cases hreg : s.registered = true
    · exact ⟨_, _, _, .skip hreg, by rw [if_pos hreg]; rfl⟩
    · exact ⟨_, _, _, .test (by simpa using hreg), by rw [if_neg hreg]; rfl⟩
  | testing m completed =>
    refine Or.inr (Or.inl ?_)
    simp only [runSingleBranch] at h
    split at h
    · rename_i hm
      exact ⟨_, _, _, .read ⟨m, hm⟩ completed, (Option.some.inj h).symm⟩
    · rename_i hm
      cases completed with
      | true => exact ⟨_, _, _, .found (Nat.le_of_not_lt hm), (Option.some.inj h).symm⟩
      | false => exact ⟨_, _, _, .missing (Nat.le_of_not_lt hm), (Option.some.inj h).symm⟩
  | registering => exact Or.inr (Or.inr (Or.inl ⟨rfl, (Option.some.inj h).symm⟩))
  | leaving => exact Or.inr (Or.inr (Or.inr ⟨rfl, (Option.some.inj h).symm⟩))

/-! ## Where the branches are, and what is stored -/

structure Account (result : ∀ i, Except E (T i)) (s : Join n T E) : Prop where
  place : ∀ i, s.fork.places i + s.finished.count i = s.fork.live i
  self : s.fork.selves + (if s.outcome.isSome then 1 else 0) =
    s.registrations.length + if s.fork.ready then 0 else 1
  ready : s.outcome.isSome = true → s.fork.ready = true
  stored : ∀ i, s.busy (pastIn i) + s.finished.count i =
    if (s.branches i).isSome then 1 else 0
  recorded : ∀ i r, s.branches i = some r → r = result i

theorem account_init (others : ℕ) : Account result (init others : Join n T E) where
  place i := by
    show (Fork.init others).places i + 0 = (Fork.init others).live i
    rw [Fork.places_init]
    rfl
  self := by
    show (Fork.init others).selves + 0 = 0 + 1
    rw [Fork.selves_init]
  ready h := by cases h
  stored i := by
    have hidle : (Fork.init others : Fork n Stage).pool.busy (Job.within (pastIn i)) = 0 :=
      Fork.busy_eq_zero (Fork.places_init others) _
    show (Fork.init others).pool.busy _ + 0 = 0
    rw [hidle]
  recorded i r h := by cases h

/-- A step that moves the branches between their places and stores nothing. -/
theorem Account.frame {fork : Fork n Stage} {mutex registered : Bool} (h : Account result s)
    (hplaces : ∀ i, fork.places i + s.fork.live i = s.fork.places i + fork.live i)
    (hselves : fork.selves = s.fork.selves) (hready : fork.ready = s.fork.ready)
    (hbusy : ∀ i, fork.pool.busy (Job.within (pastIn i)) = s.busy (pastIn i)) :
    Account result { s with fork := fork, branchMutex := mutex, registered := registered } := by
  refine ⟨?_, ?_, ?_, ?_, h.recorded⟩
  · intro i
    have := h.place i
    have := hplaces i
    simp only
    omega
  · rw [hselves, hready]
    exact h.self
  · rw [hready]
    exact h.ready
  · intro i
    have := h.stored i
    rw [← hbusy] at this
    exact this

theorem Move.past {stage' : Stage} {mutex registered : Bool}
    (h : Move s stage stage' mutex registered) : stage.past = true ∧ stage'.past = true := by
  cases h <;> exact ⟨rfl, rfl⟩

theorem fork_account {a : ForkAction n} (h : Account result s)
    (hstep : s.step result (.fork a) = some s') : Account result s' := by
  obtain ⟨fork, hfork, rfl⟩ := fork_cases hstep
  refine h.frame (Fork.step_places hfork) (Fork.step_selves hfork) (Fork.step_ready hfork) ?_
  intro i
  exact Fork.step_busy hfork fun _ => pastIn_running

theorem move_account {stage' : Stage} {mutex registered : Bool} (h : Account result s)
    (hjob : s.fork.pool.job w = some (.branch k stage))
    (hmove : Move s stage stage' mutex registered) :
    Account result { s with
      fork := { s.fork with pool := s.fork.pool.assign w (some (.branch k stage')) }
      branchMutex := mutex
      registered := registered } := by
  obtain ⟨hpast, hpast'⟩ := hmove.past
  generalize hfork : ({ s.fork with pool := s.fork.pool.assign w (some (.branch k stage')) } :
    Fork n Stage) = fork
  obtain ⟨hplaces, hselves, hready, hlive, hbusy⟩ := Fork.goOn hjob hfork
  refine h.frame (fun i => by rw [hplaces, hlive]) hselves hready fun i => ?_
  have := hbusy (pastIn i)
  rw [pastIn_past hpast, pastIn_past hpast'] at this
  exact Nat.add_right_cancel this

theorem store_account (h : Account result s)
    (hjob : s.fork.pool.job w = some (.branch k .running)) :
    Account result { s with
      fork := { s.fork with pool := s.fork.pool.assign w (some (.branch k .stored)) }
      branches := Function.update s.branches k (some (result k)) } := by
  generalize hfork : ({ s.fork with pool := s.fork.pool.assign w (some (.branch k .stored)) } :
    Fork n Stage) = fork
  obtain ⟨hplaces, hselves, hready, hlive, hbusy⟩ := Fork.goOn hjob hfork
  refine ⟨?_, ?_, ?_, ?_, ?_⟩
  · intro i
    rw [hplaces, hlive]
    exact h.place i
  · rw [hselves, hready]
    exact h.self
  · rw [hready]
    exact h.ready
  · intro i
    have hbusy : fork.pool.busy (Job.within (pastIn i)) =
        s.busy (pastIn i) + if k = i then 1 else 0 := by
      have := hbusy (pastIn i)
      rw [pastIn_running, pastIn_past rfl] at this
      simpa [busy] using this
    have hstored := h.stored i
    show fork.pool.busy (Job.within (pastIn i)) + s.finished.count i =
      if (Function.update s.branches k (some (result k)) i).isSome then 1 else 0
    by_cases hik : k = i
    · -- the branch is with this worker, so it has not stored its result before
      subst hik
      have hlt : s.busy (pastIn k) < s.fork.places k :=
        Fork.busy_lt_places (q := fun _ => Stage.past) hjob rfl
      have hplace := h.place k
      have := s.fork.live_le_one k
      rw [Function.update_self, hbusy, if_pos rfl, Option.isSome_some, if_pos rfl]
      omega
    · rw [Function.update_of_ne (Ne.symm hik), hbusy, if_neg hik]
      exact hstored
  · intro i r hr
    simp only at hr
    by_cases hik : i = k
    · subst hik
      rw [Function.update_self] at hr
      exact (Option.some.inj hr).symm
    · rw [Function.update_of_ne hik] at hr
      exact h.recorded i r hr

theorem register_account (h : Account result s)
    (hjob : s.fork.pool.job w = some (.branch k .registering)) :
    Account result { s with
      fork := { s.fork with
        pool := (s.fork.pool.push .self).assign w (some (.branch k .leaving)) }
      registrations := s.registrations ++ [k] } := by
  generalize hfork : ({ s.fork with
    pool := (s.fork.pool.push .self).assign w (some (.branch k .leaving)) } : Fork n Stage) = fork
  obtain ⟨hplaces, hselves, hready, hlive, hbusy⟩ := Fork.register_goOn hjob hfork
  refine ⟨?_, ?_, ?_, ?_, h.recorded⟩
  · intro i
    rw [hplaces, hlive]
    exact h.place i
  · have := h.self
    rw [hselves, hready, List.length_append, List.length_singleton]
    simp only
    omega
  · rw [hready]
    exact h.ready
  · intro i
    have hsame : fork.pool.busy (Job.within (pastIn i)) = s.busy (pastIn i) :=
      Nat.add_right_cancel (hbusy (pastIn i))
    have := h.stored i
    rw [← hsame] at this
    exact this

theorem unlock_account (h : Account result s)
    (hjob : s.fork.pool.job w = some (.branch k .leaving)) :
    Account result { s with
      fork := { s.fork with pool := s.fork.pool.assign w none }
      branchMutex := false
      finished := s.finished ++ [k] } := by
  generalize hfork : ({ s.fork with pool := s.fork.pool.assign w none } : Fork n Stage) = fork
  obtain ⟨hplaces, hselves, hready, hlive, hbusy⟩ := Fork.leave hjob hfork
  have hcount : ∀ i, (s.finished ++ [k]).count i = s.finished.count i + if k = i then 1 else 0 := by
    intro i
    simp [List.count_append, List.count_singleton]
  refine ⟨?_, ?_, ?_, ?_, h.recorded⟩
  · intro i
    have hplace := h.place i
    have hend := hplaces i
    rw [hlive, hcount]
    simp only
    omega
  · rw [hselves, hready]
    exact h.self
  · rw [hready]
    exact h.ready
  · intro i
    have hleft : fork.pool.busy (Job.within (pastIn i)) + (if k = i then 1 else 0) =
        s.busy (pastIn i) := by
      have := hbusy (pastIn i)
      rw [pastIn_past rfl] at this
      simpa [busy] using this
    have hstored := h.stored i
    show fork.pool.busy (Job.within (pastIn i)) + (s.finished ++ [k]).count i =
      if (s.branches i).isSome then 1 else 0
    rw [hcount]
    omega

theorem poll_account (h : Account result s) (hbound : s.registrations.length ≤ 1)
    (hstep : s.poll w = some s') : Account result s' := by
  have hself := h.self
  obtain ⟨hjob, ⟨hready, rfl⟩ | ⟨hready, rfl⟩⟩ := poll_cases hstep
  · generalize hfork : ({ s.fork with pool := s.fork.pool.assign w none } : Fork n Stage) = fork
    obtain ⟨hplaces, hselves, hready', hlive, hbusy⟩ :=
      Fork.polled hjob rfl (fun _ => rfl) (fun _ => rfl) hfork
    refine ⟨?_, ?_, fun _ => hready'.trans hready, ?_, h.recorded⟩
    · intro i
      rw [hplaces, hlive]
      exact h.place i
    · -- it is registered at most once, so there was no second poll before
      rw [hready] at hself
      rw [hready', hready]
      simp only [Option.isSome_some, if_true] at hself ⊢
      split at hself <;> omega
    · intro i
      have := h.stored i
      rw [busy, ← hbusy] at this
      exact this
  · generalize hfork : ({ s.fork with
      ready := true, pool := s.fork.pool.assign w (some .spawning) } : Fork n Stage) = fork
    obtain ⟨hplaces, hselves, hready', hlive, hbusy⟩ :=
      Fork.polled hjob rfl (fun _ => rfl) (fun _ => rfl) hfork
    refine ⟨?_, ?_, fun _ => hready', ?_, h.recorded⟩
    · intro i
      rw [hplaces, hlive]
      exact h.place i
    · rw [hready] at hself
      rw [hready']
      simp only [Bool.false_eq_true, if_true, if_false] at hself ⊢
      omega
    · intro i
      have := h.stored i
      rw [busy, ← hbusy] at this
      exact this

end Join

end Xyco.Task
