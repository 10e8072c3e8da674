import Xyco.Runtime.Proofs.RunQueueOrderProofs

/-!
# Proofs: the steps of a worker and of other threads

What a worker's point and `suspend_flag_` are after a step, whether the flag is set or not, and what
the other actions do to the run queue.
-/

namespace Xyco.Runtime

namespace LoopPoint

/-- The queue that a worker is at. -/
def queue : LoopPoint → Option ℕ
  | .tryLock q | .drain q | .pop q _ | .poll q _ _ | .resume q _ | .relock q | .check q => some q
  | .head | .drive | .stopped => none

/-- The steps that are left when `suspend_flag_` is set. -/
def left : LoopPoint → ℕ
  | .stopped => 0
  | .head => 1
  | .drive | .check _ => 2
  | .drain _ => 3
  | .tryLock _ | .relock _ => 4
  | .resume _ _ => 5
  | .poll _ _ _ => 6
  | .pop _ _ => 7

/-- The worker has an entry that is neither resumed nor refused. -/
def engaged : LoopPoint → ℕ
  | .pop _ _ | .poll _ _ _ => 1
  | _ => 0

end LoopPoint

namespace RunQueue

open Machine Table

variable {handleOf : ℕ → ℕ} {s s' : RunQueue} {a : QueueAction} {w : ℕ} {ok : Bool}

/-- What the points before and after a step of a worker have to do with each other. -/
structure Advance (s s' : RunQueue) (w : ℕ) (ok : Bool) (x y : LoopWorker) : Prop where
  worker : s.workers[w]? = some x
  runs : x.point ≠ .stopped
  workers : s'.workers = s.workers.set w y
  queues : s'.queues.length = s.queues.length
  /-- a worker goes to its own queue first and then to that of `RuntimeCore` -/
  queue : ∀ q, y.point.queue = some q → x.point.queue = some q ∨ q = w + 1 ∨ q = 0
  flag : y.point ≠ .stopped → y.suspendFlag = x.suspendFlag
  stops : y.point = .stopped → x.suspendFlag = true ∧ y.suspendFlag = false
  left : x.suspendFlag = true → y.point.left + 1 ≤ x.point.left
  engaged : x.suspendFlag = true →
    y.point.engaged + (if x.point.resumes ok then 1 else 0) ≤ x.point.engaged

/-- A worker goes on from the point `p` to the point `p'`. -/
theorem advance_of_point {x : LoopWorker} {p p' : LoopPoint} (hx : s.workers[w]? = some x)
    (hp : x.point = p) (hworkers : s'.workers = s.workers.set w { x with point := p' })
    (hqueues : s'.queues.length = s.queues.length) (hruns : p ≠ .stopped) (hruns' : p' ≠ .stopped)
    (hqueue : ∀ q, p'.queue = some q → p.queue = some q ∨ q = w + 1 ∨ q = 0)
    (hleft : x.suspendFlag = true → p'.left + 1 ≤ p.left)
    (hengaged : x.suspendFlag = true → p'.engaged + (if p.resumes ok then 1 else 0) ≤ p.engaged) :
    ∃ x y, Advance s s' w ok x y := by
  subst hp
  exact ⟨x, { x with point := p' }, hx, hruns, hworkers, hqueues, hqueue, fun _ => rfl,
    fun hstopped => absurd hstopped hruns', hleft, hengaged⟩

theorem runWorker_advance (hstep : s.runWorker w ok = some s') :
    ∃ x y, Advance s s' w ok x y := by
  unfold runWorker at hstep
  cases hx : s.workers[w]? with
  | none => simp [hx] at hstep
  | some x =>
    simp only [hx] at hstep
    cases hp : x.point with
    | head =>
      simp only [hp] at hstep
      rcases eq_of_branch hstep with ⟨hflag, rfl⟩ | ⟨hflag, rfl⟩
      · -- the flag is put back, and the loop ends
        refine ⟨x, ⟨false, .stopped⟩, hx, by rw [hp]; exact nofun, rfl, rfl, nofun,
          fun hne => absurd rfl hne, fun _ => ⟨hflag, rfl⟩, fun _ => ?_, fun _ => ?_⟩
        · rw [hp]
          exact Nat.le_refl 1
        · rw [hp]
          exact Nat.le_refl 0
      · exact advance_of_point hx hp rfl rfl nofun nofun
          (fun q hq => Or.inr (Or.inl (Option.some.inj hq).symm)) (fun h => absurd h hflag)
          fun _ => Nat.le_refl 0
    | tryLock q =>
      simp only [hp] at hstep
      split at hstep
      · cases hstep
      · rcases eq_of_branch hstep with ⟨-, rfl⟩ | ⟨-, rfl⟩
        · exact advance_of_point hx hp rfl List.length_set nofun nofun (fun _ => Or.inl)
            (fun _ => Nat.le_refl 4) fun _ => Nat.le_refl 0
        · exact advance_of_point hx hp rfl rfl nofun nofun (fun _ => Or.inl)
            (fun _ => Nat.le_succ 3) fun _ => Nat.le_refl 0
    | drain q =>
      simp only [hp] at hstep
      split at hstep
      · cases hstep
      · split at hstep
        · rename_i hflag _
          obtain rfl := Option.some.inj hstep
          -- an entry is read only while the flag is not set
          have hclear : ¬ x.suspendFlag = true := by rw [hflag]; exact nofun
          exact advance_of_point hx hp rfl rfl nofun nofun (fun _ => Or.inl)
            (fun h => absurd h hclear) fun h => absurd h hclear
        · obtain rfl := Option.some.inj hstep
          exact advance_of_point hx hp rfl List.length_set nofun nofun (fun _ => Or.inl)
            (fun _ => Nat.le_refl 3) fun _ => Nat.le_refl 0
    | pop q entry =>
      simp only [hp] at hstep
      split at hstep
      · cases hstep
      · obtain rfl := Option.some.inj hstep
        exact advance_of_point hx hp rfl List.length_set nofun nofun (fun _ => Or.inl)
          (fun _ => Nat.le_refl 7) fun _ => Nat.le_refl 1
    | poll q i entry =>
      simp only [hp] at hstep
      rcases eq_of_branch hstep with ⟨-, rfl⟩ | ⟨hready, rfl⟩
      · refine advance_of_point hx hp rfl rfl nofun nofun (fun _ => Or.inl) (fun _ => Nat.le_refl 6)
          fun _ => ?_
        simp only [LoopPoint.engaged]
        split <;> omega
      · refine advance_of_point hx hp rfl rfl nofun nofun (fun _ => Or.inl) (fun _ => Nat.le_succ 5)
          fun _ => ?_
        simp only [LoopPoint.engaged]
        split <;> omega
    | resume q entry =>
      simp only [hp] at hstep
      obtain rfl := Option.some.inj hstep
      exact advance_of_point hx hp rfl rfl nofun nofun (fun _ => Or.inl) (fun _ => Nat.le_refl 5)
        fun _ => Nat.le_refl 0
    | relock q =>
      simp only [hp] at hstep
      split at hstep
      · cases hstep
      · obtain ⟨-, rfl⟩ := eq_of_guard hstep
        exact advance_of_point hx hp rfl List.length_set nofun nofun (fun _ => Or.inl)
          (fun _ => Nat.le_refl 4) fun _ => Nat.le_refl 0
    | check q =>
      simp only [hp] at hstep
      split at hstep
      · obtain rfl := Option.some.inj hstep
        exact advance_of_point hx hp rfl rfl nofun nofun nofun (fun _ => Nat.le_refl 2)
          fun _ => Nat.le_refl 0
      · rename_i hflag
        rcases eq_of_branch hstep with ⟨-, rfl⟩ | ⟨-, rfl⟩
        · exact advance_of_point hx hp rfl rfl nofun nofun nofun (fun h => absurd h hflag)
            fun _ => Nat.le_refl 0
        · exact advance_of_point hx hp rfl rfl nofun nofun
            (fun q hq => Or.inr (Or.inr (Option.some.inj hq).symm)) (fun h => absurd h hflag)
            fun _ => Nat.le_refl 0
    | drive =>
      simp only [hp] at hstep
      obtain rfl := Option.some.inj hstep
      exact advance_of_point hx hp rfl rfl nofun nofun nofun (fun _ => Nat.le_refl 2)
        fun _ => Nat.le_refl 0
    | stopped =>
      simp only [hp] at hstep
      cases hstep

/-- What an action does that is not a step of a worker. -/
inductive Outside (s : RunQueue) : QueueAction → RunQueue → Prop where
  | nothing {a : QueueAction} : Outside s a s
  | enqueue {a : QueueAction} {s' : RunQueue} {q : ℕ} {entry : QueueEntry}
      (hstep : s.enqueue q entry = some s')
      (hfuture : ∀ f, entry.future = some f →
        a = .registerFuture f ∨ a = .wake f ∨ ∃ v, a = .wakeLocal v f) : Outside s a s'
  | suspend {w : ℕ} {x : LoopWorker} (hx : s.workers[w]? = some x) :
      Outside s (.suspend w) { s with workers := s.workers.set w { x with suspendFlag := true } }
  | start {w : ℕ} {x : LoopWorker} (hx : s.workers[w]? = some x) (hp : x.point = .stopped) :
      Outside s (.start w) (s.goTo w x .head)

theorem step_outside (hstep : s.step handleOf a = some s') (ha : isWorker a = false) :
    Outside s a s' := by
  have hinj : ∀ {f g : ℕ}, some f = some g → f = g := Option.some.inj
  cases a with
  | spawnImpl handle =>
    cases handle with
    | none =>
      obtain rfl := Option.some.inj hstep
      exact .nothing
    | some handle => exact .enqueue hstep nofun
  | registerFuture f => exact .enqueue hstep fun g hg => Or.inl (hinj hg ▸ rfl)
  | wake f => exact .enqueue hstep fun g hg => Or.inr (Or.inl (hinj hg ▸ rfl))
  | wakeLocal v f => exact .enqueue hstep fun g hg => Or.inr (Or.inr ⟨v, hinj hg ▸ rfl⟩)
  | suspend w =>
    have hsuspend : s.suspend w = some s' := hstep
    unfold suspend at hsuspend
    split at hsuspend
    · cases hsuspend
    · rename_i x hx
      obtain rfl := Option.some.inj hsuspend
      exact .suspend hx
  | start w =>
    have hstart : s.start w = some s' := hstep
    unfold start at hstart
    split at hstart
    · cases hstart
    · rename_i x hx
      obtain ⟨hp, rfl⟩ := eq_of_guard hstart
      exact .start hx hp
  | worker w ok => cases ha

end RunQueue

end Xyco.Runtime
