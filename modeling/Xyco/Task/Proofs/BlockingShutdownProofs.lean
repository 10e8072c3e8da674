import Xyco.Task.Proofs.BlockingStepProofs

/-!
# Proofs: the destructor of the blocking pool

`end_` is set and the worker is notified without its mutex. A worker that has seen `end_` does not go
to sleep, and one that is asleep is woken; only a worker between the two misses the notification.
-/

namespace Xyco.Task

namespace BlockingWorker

variable {x : BlockingWorker}

/-- The worker will see `end_` without a further notification. -/
structure Roused (x : BlockingWorker) : Prop where
  ended : x.ended = true
  not_parked : x.point ≠ .park
  not_asleep : x.point ≠ .asleep

theorem notify_ended (x : BlockingWorker) : x.notify.ended = x.ended := by
  unfold notify
  split <;> rfl

theorem roused_notify (hended : x.ended = true) (hpark : x.point ≠ .park) : Roused x.notify := by
  unfold notify
  split
  · exact ⟨hended, nofun, nofun⟩
  · rename_i hasleep
    exact ⟨hended, hpark, hasleep⟩

end BlockingWorker

namespace DestructorPoint

/-- The destructor has notified the worker `w`. -/
def notified (w : ℕ) : DestructorPoint → Prop
  | .idle => False
  | .ending v | .notifying v => w < v
  | .joining => True

theorem notified_next {w v n : ℕ} (hv : v < n)
    (h : (if w + 1 < n then DestructorPoint.ending (w + 1) else .joining).notified v) : v ≤ w := by
  split at h
  · exact Nat.le_of_lt_succ h
  · omega

end DestructorPoint

namespace BlockingRegistry

open Machine Table BlockingWorker

variable {s s' : BlockingRegistry} {a : BlockingAction} {w k n m : ℕ} {x y : BlockingWorker}
variable {p : CallerPoint}

structure Ending (s : BlockingRegistry) : Prop where
  ended : ∀ w x, s.workers[w]? = some x → s.destructor = .notifying w → x.ended = true
  roused : ∀ w x, s.workers[w]? = some x → s.destructor.notified w → Roused x

theorem ending_init : Ending (init n m) := by
  constructor
  · intro w x _ hd
    cases hd
  · intro w x _ hd
    cases hd

/-! ## The steps of the threads -/

theorem Ending.of_same (h : Ending s) (hworkers : s'.workers = s.workers)
    (hdestructor : s'.destructor = s.destructor) : Ending s' := by
  constructor
  · rw [hworkers, hdestructor]
    exact h.ended
  · rw [hworkers, hdestructor]
    exact h.roused

/-- A worker is replaced by one that is no less ready to end. -/
theorem Ending.set (h : Ending s) (hx : s.workers[w]? = some x)
    (hworkers : s'.workers = s.workers.set w y) (hdestructor : s'.destructor = s.destructor)
    (hended : y.ended = x.ended) (hroused : Roused x → Roused y) : Ending s' := by
  constructor
  · rw [hworkers, hdestructor]
    apply forall_set h.ended
    intro hd
    rw [hended]
    exact h.ended w x hx hd
  · rw [hworkers, hdestructor]
    apply forall_set h.roused
    intro hd
    exact hroused (h.roused w x hx hd)

theorem turn_ending (h : Ending s) (hx : s.workers[w]? = some x) (hturn : Turn s w x s') :
    Ending s' := by
  cases hturn with
  | test hp =>
    refine h.set hx rfl rfl rfl fun hr => ⟨hr.ended, ?_, ?_⟩
    · show (if x.ended then WorkerPoint.returned else .lock) ≠ .park
      rw [hr.ended]
      exact nofun
    · show (if x.ended then WorkerPoint.returned else .lock) ≠ .asleep
      rw [hr.ended]
      exact nofun
  | park hp hawake =>
    -- the predicate of `wait` is true once `end_` is set
    refine h.set hx rfl rfl rfl fun hr => ?_
    rw [awake, hr.ended, Bool.or_true] at hawake
    cases hawake
  | sleep hp => exact h.set hx rfl rfl rfl fun hr => absurd hp hr.not_parked
  | _ => exact h.set hx rfl rfl rfl fun hr => ⟨hr.ended, nofun, nofun⟩

theorem roused_of_notify (hr : Roused x) : Roused x.notify := roused_notify hr.ended hr.not_parked

theorem callerTurn_ending (h : Ending s) (hturn : CallerTurn s k p s') : Ending s' := by
  cases hturn with
  | push hy _ =>
    exact h.set hy rfl rfl rfl fun hr => ⟨hr.ended, hr.not_parked, hr.not_asleep⟩
  | notify hx => exact h.set hx rfl rfl (notify_ended _) roused_of_notify
  | _ => exact h.of_same rfl rfl

/-! ## The steps of the destructor -/

/-- The worker has evaluated the predicate of `cv_.wait` and does not wait yet. -/
def parked (s : BlockingRegistry) (w : ℕ) : Bool := s.workers[w]?.any fun x => x.point == .park

/-- The destructor notifies a worker that is between the two. -/
def misses (s : BlockingRegistry) : BlockingAction → Bool
  | .destroy =>
    match s.destructor with
    | .notifying w => s.parked w
    | _ => false
  | _ => false

theorem destroy_ending (h : Ending s) (hG : s.misses .destroy = false)
    (hstep : s.destroy = some s') : Ending s' := by
  obtain ⟨hd, rfl⟩ | ⟨w, x, hd, hx, rfl⟩ | ⟨w, x, hd, hx, rfl⟩ := destroy_cases hstep
  · by_cases hnil : s.workers = []
    · rw [if_pos hnil]
      constructor
      · intro w x _ hd'
        cases hd'
      · intro w x hx
        rw [hnil] at hx
        cases hx
    · rw [if_neg hnil]
      constructor
      · intro w x _ hd'
        cases hd'
      · intro w x _ hlt
        exact absurd hlt (Nat.not_lt_zero w)
  · constructor
    · intro v y hy hv
      cases hv
      obtain rfl := Option.some.inj ((get_set_self hx _).symm.trans hy)
      rfl
    · apply forall_set
      · intro v y hy hv
        exact h.roused v y hy (by rw [hd]; exact hv)
      · intro hlt
        exact absurd hlt (Nat.lt_irrefl w)
  · have hpark : x.point ≠ .park := by
      rw [misses, hd] at hG
      intro hp
      simp [parked, hx, hp] at hG
    constructor
    · intro v y _ hv
      simp only at hv
      split at hv <;> cases hv
    · intro v y hy hv
      have hlt : v < s.workers.length := by
        obtain ⟨hlt, -⟩ := List.getElem?_eq_some_iff.mp hy
        rwa [setWorker, List.length_set] at hlt
      have hle := DestructorPoint.notified_next hlt hv
      have hy' : (s.workers.set w x.notify)[v]? = some y := hy
      rw [get_set hx] at hy'
      split at hy'
      · obtain rfl := Option.some.inj hy'
        exact roused_notify (h.ended w x hx hd) hpark
      · rename_i hne
        exact h.roused v y hy' (by rw [hd]; exact Nat.lt_of_le_of_ne hle hne)

theorem step_ending (h : Ending s) (hG : s.misses a = false) (hstep : s.step a = some s') :
    Ending s' := by
  cases a with
  | worker w =>
    obtain ⟨x, hx, hturn⟩ := runWorker_cases hstep
    exact turn_ending h hx hturn
  | wakeSpuriously w =>
    obtain ⟨x, hx, hp, rfl⟩ := wakeSpuriously_cases hstep
    exact h.set hx rfl rfl rfl fun hr => absurd hp hr.not_asleep
  | register k =>
    obtain ⟨-, rfl⟩ := eq_of_guard hstep
    exact h.of_same rfl rfl
  | select k =>
    obtain ⟨-, rfl⟩ := eq_of_guard hstep
    exact h.of_same rfl rfl
  | caller k =>
    obtain ⟨p, -, hturn⟩ := runCaller_cases hstep
    exact callerTurn_ending h hturn
  | destroy => exact destroy_ending h hG hstep

/-! ## The joins -/

/-- The destructor is past its notifications, and a worker waits for one. -/
def Stranded (s : BlockingRegistry) : Prop :=
  s.destructor = .joining ∧ ∃ x ∈ s.workers, x.point = .asleep

instance (s : BlockingRegistry) : Decidable s.Stranded := inferInstanceAs (Decidable (_ ∧ _))

/-- Unless a notification comes in the window between the predicate of a worker's `cv_.wait` and its
sleep, the joins of the destructor wait for no worker that nobody wakes. -/
theorem shutdown_strands_nobody {acts : List BlockingAction}
    (hG : Along step (fun s a => s.misses a = false) (init n m) acts)
    (h : run step (init n m) acts = some s) : ¬ s.Stranded := by
  have hending : Ending s :=
    run_invariant_along (fun _ _ _ hs hg hst => step_ending hs hg hst) ending_init hG h
  rintro ⟨hjoining, x, hx, hasleep⟩
  obtain ⟨w, hw⟩ := List.mem_iff_getElem?.mp hx
  have hroused := hending.roused w x hw (by rw [hjoining]; trivial)
  exact hroused.not_asleep hasleep

/-- Worker 0 from the start of `run` to the evaluation of the predicate. -/
def untilParked : List BlockingAction :=
  [.worker 0, .worker 0, .worker 0, .worker 0, .worker 0]

theorem shutdown_strands_nobody_asleep :
    ∃ s, run step (init 1 0) (untilParked ++ [.worker 0, .destroy, .destroy, .destroy]) = some s ∧
      s.destructor = .joining ∧ ¬ s.Stranded := by
  have hrun : ∃ s, run step (init 1 0)
      (untilParked ++ [.worker 0, .destroy, .destroy, .destroy]) = some s ∧
      s.destructor = .joining := exists_run (by decide)
  obtain ⟨s, hs, hjoining⟩ := hrun
  exact ⟨s, hs, hjoining, shutdown_strands_nobody (by decide) hs⟩

/-- The notification comes between the predicate and the sleep. -/
theorem shutdown_strands_parked :
    ∃ s, run step (init 1 0) (untilParked ++ [.destroy, .destroy, .destroy, .worker 0]) = some s ∧
      s.Stranded :=
  exists_run (by decide)

end BlockingRegistry

end Xyco.Task
