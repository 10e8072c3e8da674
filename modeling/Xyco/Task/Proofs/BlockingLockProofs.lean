import Xyco.Task.Proofs.BlockingStepProofs

/-!
# Proofs: who holds the mutex of the blocking registry
-/

namespace Xyco.Task.BlockingRegistry

open Machine Table

variable {s s' : BlockingRegistry} {a : BlockingAction} {w k n m : ℕ} {x y : BlockingWorker}
variable {p q : CallerPoint} {o : Owner}

/-- A thread is inside the scope of a guard of the registry's mutex. -/
def HoldsRegistry (s : BlockingRegistry) : Owner → Prop
  | .worker w => s.workers[w]?.any (fun x => x.point.holdsRegistry) = true
  | .caller k => s.callers[k]?.any CallerPoint.holdsRegistry = true

def Guarded (s : BlockingRegistry) : Prop := Guards s.mutex s.HoldsRegistry

theorem holds_worker (hx : s.workers[w]? = some x) :
    s.HoldsRegistry (.worker w) ↔ x.point.holdsRegistry = true := by
  show s.workers[w]?.any (fun x => x.point.holdsRegistry) = true ↔ _
  rw [hx, Option.any_some]

theorem holds_caller (hk : s.callers[k]? = some p) :
    s.HoldsRegistry (.caller k) ↔ p.holdsRegistry = true := by
  show s.callers[k]?.any CallerPoint.holdsRegistry = true ↔ _
  rw [hk, Option.any_some]

theorem holds_setWorker_self (hx : s.workers[w]? = some x) (y : BlockingWorker) :
    (s.setWorker w y).HoldsRegistry (.worker w) ↔ y.point.holdsRegistry = true :=
  holds_worker (get_set_self hx y)

theorem holds_goTo_self (hk : s.callers[k]? = some p) (q : CallerPoint) :
    (s.goTo k q).HoldsRegistry (.caller k) ↔ q.holdsRegistry = true :=
  holds_caller (get_set_self hk q)

theorem holds_setWorker (hx : s.workers[w]? = some x) (y : BlockingWorker) (o : Owner)
    (ho : o ≠ .worker w) : (s.setWorker w y).HoldsRegistry o ↔ s.HoldsRegistry o := by
  cases o with
  | worker v =>
    have hvw : v ≠ w := fun h => ho (congrArg Owner.worker h)
    simp only [HoldsRegistry, setWorker, any_set hx, if_neg hvw]
  | caller k => exact Iff.rfl

theorem holds_goTo (hk : s.callers[k]? = some p) (q : CallerPoint) (o : Owner)
    (ho : o ≠ .caller k) : (s.goTo k q).HoldsRegistry o ↔ s.HoldsRegistry o := by
  cases o with
  | worker w => exact Iff.rfl
  | caller l =>
    have hlk : l ≠ k := fun h => ho (congrArg Owner.caller h)
    simp only [HoldsRegistry, goTo, any_set hk, if_neg hlk]

/-! ## The steps -/

theorem guarded_init : Guarded (init n m) := by
  have hfree : ∀ o, ¬ (init n m).HoldsRegistry o := by
    intro o
    cases o with
    | worker w => exact Bool.eq_false_iff.mp (any_replicate rfl n w)
    | caller k => exact Bool.eq_false_iff.mp (any_replicate rfl m k)
  intro o
  constructor
  · intro ho
    exact absurd ho (hfree o)
  · intro ho
    cases ho

/-- A worker goes on to a point with the same hold on the mutex. -/
theorem Guarded.setWorker (h : Guarded s) (hx : s.workers[w]? = some x)
    (hy : y.point.holdsRegistry = x.point.holdsRegistry) : Guarded (s.setWorker w y) := by
  refine h.keep fun o => ?_
  by_cases ho : o = .worker w
  · subst ho
    rw [holds_setWorker_self hx, holds_worker hx, hy]
  · exact holds_setWorker hx y o ho

theorem Guarded.goTo (h : Guarded s) (hk : s.callers[k]? = some p)
    (hq : q.holdsRegistry = p.holdsRegistry) : Guarded (s.goTo k q) := by
  refine h.keep fun o => ?_
  by_cases ho : o = .caller k
  · subst ho
    rw [holds_goTo_self hk, holds_caller hk, hq]
  · exact holds_goTo hk q o ho

theorem turn_guarded (h : Guarded s) (hx : s.workers[w]? = some x) (hturn : Turn s w x s') :
    Guarded s' := by
  cases hturn with
  | test hp =>
    apply h.setWorker hx
    rw [hp]
    show (if x.ended then WorkerPoint.returned else .lock).holdsRegistry = false
    split <;> rfl
  | lock hp _ => exact h.setWorker hx (by rw [hp]; rfl)
  | enter hp hfree =>
    exact h.acquire hfree ((holds_setWorker_self hx _).mpr rfl) (holds_setWorker hx _)
  | leave hp _ =>
    refine h.release ((holds_worker hx).mpr (by rw [hp]; rfl)) ?_ (holds_setWorker hx _)
    rw [holds_setWorker_self (by exact hx)]
    exact Bool.false_ne_true
  | start hp _ => exact Guarded.setWorker (s := { s with started := _ }) h hx (by rw [hp]; rfl)
  | finish hp => exact Guarded.setWorker (s := { s with finished := _ }) h hx (by rw [hp]; rfl)
  | relock hp _ => exact h.setWorker hx (by rw [hp]; rfl)
  | again hp _ => exact h.setWorker hx (by rw [hp]; rfl)
  | park hp _ => exact h.setWorker hx (by rw [hp]; rfl)
  | sleep hp => exact h.setWorker hx (by rw [hp]; rfl)
  | wake hp _ => exact h.setWorker hx (by rw [hp]; rfl)

theorem notify_holdsRegistry (x : BlockingWorker) :
    x.notify.point.holdsRegistry = x.point.holdsRegistry := by
  unfold BlockingWorker.notify
  split
  · rename_i hp
    rw [hp]
    rfl
  · rfl

theorem callerTurn_guarded (h : Guarded s) (hk : s.callers[k]? = some p)
    (hturn : CallerTurn s k p s') : Guarded s' := by
  cases hturn with
  | compare _ => exact h.goTo hk rfl
  | push hy _ =>
    exact Guarded.goTo (s := s.setWorker _ _) (h.setWorker hy (by rfl)) hk (by rfl)
  | notify hx => exact (h.setWorker hx (notify_holdsRegistry _)).goTo hk rfl
  | keep => exact h.goTo hk rfl
  | take => exact h.goTo hk rfl
  | assign =>
    refine h.release ((holds_caller hk).mpr rfl) ?_ (holds_goTo hk _)
    rw [holds_goTo_self (by exact hk)]
    exact Bool.false_ne_true

theorem step_guarded (h : Guarded s) (hstep : s.step a = some s') : Guarded s' := by
  cases a with
  | worker w =>
    obtain ⟨x, hx, hturn⟩ := runWorker_cases hstep
    exact turn_guarded h hx hturn
  | wakeSpuriously w =>
    obtain ⟨x, hx, hp, rfl⟩ := wakeSpuriously_cases hstep
    exact h.setWorker hx (by rw [hp]; rfl)
  | register k =>
    obtain ⟨⟨hk, -⟩, rfl⟩ := eq_of_guard hstep
    exact Guarded.goTo (s := { s with events := _, registered := _ }) h hk rfl
  | select k =>
    obtain ⟨⟨hk, hfree⟩, rfl⟩ := eq_of_guard hstep
    exact h.acquire hfree ((holds_goTo_self hk _).mpr rfl) (holds_goTo hk _)
  | caller k =>
    obtain ⟨p, hk, hturn⟩ := runCaller_cases hstep
    exact callerTurn_guarded h hk hturn
  | destroy =>
    obtain ⟨-, rfl⟩ | ⟨w, x, -, hx, rfl⟩ | ⟨w, x, -, hx, rfl⟩ := destroy_cases hstep
    · exact h
    · exact h.setWorker hx rfl
    · exact h.setWorker hx (notify_holdsRegistry x)

theorem guarded_of_reachable (h : Reachable step (init n m) s) : Guarded s :=
  h.invariant guarded_init fun _ _ _ hs hstep => step_guarded hs hstep

/-! ## A running task -/

/-- The worker `w` executes the function of a task. -/
def executing (s : BlockingRegistry) (w : ℕ) : Bool :=
  s.workers[w]?.any fun x => x.point.executes

theorem holdsRegistry_of_executes {p : WorkerPoint} (h : p.executes = true) :
    p.holdsRegistry = true := by
  cases p <;> first | rfl | cases h

theorem mutex_of_executing (h : Guarded s) (hw : s.executing w = true) :
    s.mutex = some (.worker w) := by
  obtain ⟨x, hx, hp⟩ := (Option.any_eq_true _ _).mp hw
  exact (h (.worker w)).mp ((holds_worker hx).mpr (holdsRegistry_of_executes hp))

/-- A task is started by a worker that holds the mutex and executes nothing. -/
theorem started_of_executing (h : Guarded s) (hw : s.executing w = true) {v : ℕ}
    (hstep : s.runWorker v = some s') : s'.started = s.started := by
  obtain ⟨y, hy, hturn⟩ := runWorker_cases hstep
  cases hturn with
  | start hp _ =>
    have hv : s.mutex = some (.worker v) := (h (.worker v)).mp ((holds_worker hy).mpr (by rw [hp]; rfl))
    rw [mutex_of_executing h hw] at hv
    cases hv
    rw [executing, hy, Option.any_some, hp] at hw
    cases hw
  | _ => rfl

/-- The mutex is not held by a worker that executes the function of a task. -/
def Unblocking (s : BlockingRegistry) : Prop :=
  ∀ w, s.executing w = true → s.mutex ≠ some (.worker w)

/-- A task is always run under the mutex of the registry. As long as it runs, nobody else can enter
`Register` or `select`, and no other worker can start a task. -/
theorem running_task_holds_mutex (h : Reachable step (init n m) s) :
    (s.Unblocking ↔ ∀ w, s.executing w = false) ∧
    ∀ w, s.executing w = true → ∀ k v,
      s.step (.register k) = none ∧ s.step (.select k) = none ∧
      ∀ s', s.step (.worker v) = some s' → s'.started = s.started := by
  have hguard := guarded_of_reachable h
  refine ⟨⟨fun hun w => ?_, fun hnone w hw => ?_⟩, fun w hw k v => ⟨?_, ?_, fun s' hstep => ?_⟩⟩
  · by_contra hw
    rw [Bool.not_eq_false] at hw
    exact hun w hw (mutex_of_executing hguard hw)
  · rw [hnone w] at hw
    cases hw
  · simp [step, register, mutex_of_executing hguard hw]
  · simp [step, select, mutex_of_executing hguard hw]
  · exact started_of_executing hguard hw hstep

/-- `Register` by thread 0, up to the `notify_one`, and worker 0 up to the start of the task. -/
def oneTask : List BlockingAction :=
  [.register 0, .caller 0, .caller 0, .caller 0, .worker 0, .worker 0, .worker 0, .worker 0]

theorem running_task_holds_mutex_one_task :
    ∃ s, Reachable step (init 2 2) s ∧ s.executing 0 = true ∧ ¬ s.Unblocking := by
  have hrun : ∃ s, run step (init 2 2) oneTask = some s ∧ s.executing 0 = true :=
    exists_run (by decide)
  obtain ⟨s, hs, hw⟩ := hrun
  have hreach : Reachable step (init 2 2) s := ⟨oneTask, hs⟩
  refine ⟨s, hreach, hw, fun hun => ?_⟩
  have := ((running_task_holds_mutex hreach).1.mp hun) 0
  rw [hw] at this
  cases this

/-- Thread 1 cannot register a task of its own, nor poll the registry, while worker 0 runs one, and
worker 1 has to wait for it. -/
theorem register_blocked_by_task :
    ∃ s, run step (init 2 2) (oneTask ++ [.worker 1, .worker 1]) = some s ∧
      s.executing 0 = true ∧ s.mutex = some (.worker 0) ∧ s.step (.register 1) = none ∧
      s.step (.select 1) = none ∧ s.step (.worker 1) = none :=
  exists_run (by decide)

end Xyco.Task.BlockingRegistry
