import Mathlib.Algebra.BigOperators.Group.List.Basic
import Xyco.Task.Proofs.BlockingLockProofs

/-!
# Proofs: the account of the blocking tasks

The task of an event is with the `Register` call that is about to queue it, in the queue of a worker,
being run or finished. Each step leaves it where it is or takes it from one of these to the next.
-/

namespace Xyco.Task.BlockingRegistry

open Machine Table

variable {s s' : BlockingRegistry} {a : BlockingAction} {w k n m e : ℕ} {x y : BlockingWorker}
variable {p q : CallerPoint}

/-- The `Register` calls that have still to queue the task of `e`. -/
def spawning (s : BlockingRegistry) (e : ℕ) : ℕ := (s.callers.map (CallerPoint.spawns e)).sum

/-- How often the task of `e` is queued, on all workers together. -/
def queued (s : BlockingRegistry) (e : ℕ) : ℕ := (s.workers.map fun x => x.tasks.count e).sum

/-- The workers that run the task of `e`. -/
def running (s : BlockingRegistry) (e : ℕ) : ℕ :=
  (s.workers.map fun x => x.point.runs e).sum

structure Accounted (s : BlockingRegistry) (e : ℕ) : Prop where
  once : s.spawning e + s.queued e + s.running e + s.finished.count e =
    if e < s.registered then 1 else 0
  started : s.started.count e = s.running e + s.finished.count e

theorem accounted_init : Accounted (init n m) e := by
  constructor
  · simp [spawning, queued, running, init, CallerPoint.spawns, WorkerPoint.runs]
  · simp [running, init, WorkerPoint.runs]

/-! ## How the numbers change -/

theorem counts_of_workers (hworkers : s'.workers = s.workers) (e : ℕ) :
    s'.queued e = s.queued e ∧ s'.running e = s.running e := by
  unfold queued running
  rw [hworkers]
  exact ⟨rfl, rfl⟩

theorem counts_worker (hx : s.workers[w]? = some x) (hworkers : s'.workers = s.workers.set w y)
    (e : ℕ) : s'.queued e + x.tasks.count e = s.queued e + y.tasks.count e ∧
      s'.running e + x.point.runs e = s.running e + y.point.runs e := by
  unfold queued running
  rw [hworkers]
  exact ⟨sum_map_set hx _ y, sum_map_set hx _ y⟩

theorem spawning_caller (hk : s.callers[k]? = some p) (hcallers : s'.callers = s.callers.set k q)
    (e : ℕ) : s'.spawning e + p.spawns e = s.spawning e + q.spawns e := by
  unfold spawning
  rw [hcallers]
  exact sum_map_set hk _ q

theorem runs_eq_zero {p : WorkerPoint} (h : p.executes = false) : p.runs e = 0 := by
  cases p <;> first | rfl | cases h

/-- A worker moves on. What leaves its queue is run by it, and what it no longer runs is finished. -/
theorem Accounted.of_worker (h : Accounted s e) (hx : s.workers[w]? = some x)
    (hworkers : s'.workers = s.workers.set w y) (hcallers : s'.callers = s.callers)
    (hregistered : s'.registered = s.registered)
    (hload : y.tasks.count e + y.point.runs e + s'.finished.count e =
      x.tasks.count e + x.point.runs e + s.finished.count e)
    (hstart : s'.started.count e + x.point.runs e + s.finished.count e =
      s.started.count e + y.point.runs e + s'.finished.count e) : Accounted s' e := by
  obtain ⟨hqueued, hrunning⟩ := counts_worker hx hworkers e
  have hspawning : s'.spawning e = s.spawning e := by
    unfold spawning
    rw [hcallers]
  obtain ⟨honce, hstarted⟩ := h
  rw [← hregistered] at honce
  exact ⟨by omega, by omega⟩

/-- A call moves on that has no more and no less to queue. -/
theorem Accounted.of_caller (h : Accounted s e) (hk : s.callers[k]? = some p)
    (hcallers : s'.callers = s.callers.set k q) (hworkers : s'.workers = s.workers)
    (hspawns : q.spawns e = p.spawns e) (hregistered : s'.registered = s.registered)
    (hstarted : s'.started = s.started) (hfinished : s'.finished = s.finished) :
    Accounted s' e := by
  have hspawning := spawning_caller hk hcallers e
  obtain ⟨hqueued, hrunning⟩ := counts_of_workers hworkers e
  obtain ⟨honce, hstarted'⟩ := h
  rw [← hregistered, ← hfinished] at honce
  rw [← hstarted, ← hfinished] at hstarted'
  exact ⟨by omega, by omega⟩

/-- The queue of a worker takes over a task. -/
theorem Accounted.of_push {b best next : ℕ} (h : Accounted s e)
    (hk : s.callers[k]? = some (.spawning b best next)) (hy : s.workers[w]? = some y)
    (hworkers : s'.workers = s.workers.set w { y with tasks := y.tasks ++ [b] })
    (hcallers : s'.callers = s.callers.set k (.notifying w))
    (hregistered : s'.registered = s.registered) (hstarted : s'.started = s.started)
    (hfinished : s'.finished = s.finished) : Accounted s' e := by
  obtain ⟨hqueued, hrun⟩ := counts_worker hy hworkers e
  have hrunning : s'.running e + y.point.runs e = s.running e + y.point.runs e := hrun
  have hspawning := spawning_caller hk hcallers e
  rw [count_concat] at hqueued
  simp only [CallerPoint.spawns] at hspawning
  obtain ⟨honce, hstarted'⟩ := h
  rw [← hregistered, ← hfinished] at honce
  rw [← hstarted, ← hfinished] at hstarted'
  exact ⟨by omega, by omega⟩

/-- A new event, which the call has to queue. -/
theorem Accounted.of_register (h : Accounted s e) (hk : s.callers[k]? = some .idle)
    (hcallers : s'.callers = s.callers.set k (.spawning s.registered 0 1))
    (hworkers : s'.workers = s.workers) (hregistered : s'.registered = s.registered + 1)
    (hstarted : s'.started = s.started) (hfinished : s'.finished = s.finished) :
    Accounted s' e := by
  have hspawning := spawning_caller hk hcallers e
  obtain ⟨hqueued, hrunning⟩ := counts_of_workers hworkers e
  simp only [CallerPoint.spawns] at hspawning
  obtain ⟨honce, hstarted'⟩ := h
  rw [← hfinished] at honce
  rw [← hstarted, ← hfinished] at hstarted'
  refine ⟨?_, by omega⟩
  rw [hregistered]
  by_cases heq : s.registered = e
  · rw [if_neg (by omega)] at honce
    rw [if_pos heq] at hspawning
    rw [if_pos (by omega)]
    omega
  · rw [if_neg heq] at hspawning
    have hiff : e < s.registered + 1 ↔ e < s.registered := by omega
    simp only [hiff]
    omega

/-! ## The steps -/

theorem turn_accounted (h : Accounted s e) (hx : s.workers[w]? = some x) (hturn : Turn s w x s') :
    Accounted s' e := by
  -- the points where no task is run
  have hquiet : ∀ {t : BlockingRegistry} {y : BlockingWorker},
      t.workers = s.workers.set w y → t.callers = s.callers → t.registered = s.registered →
      t.started = s.started → t.finished = s.finished → y.tasks = x.tasks →
      x.point.executes = false → y.point.executes = false → Accounted t e := by
    intro t y hworkers hcallers hregistered hstarted hfinished htasks hpx hpy
    refine h.of_worker hx hworkers hcallers hregistered ?_ ?_
    · rw [htasks, hfinished, runs_eq_zero hpx, runs_eq_zero hpy]
    · rw [hstarted, hfinished, runs_eq_zero hpx, runs_eq_zero hpy]
  cases hturn with
  | test hp =>
    refine hquiet rfl rfl rfl rfl rfl rfl (by rw [hp]; rfl) ?_
    show (if x.ended then WorkerPoint.returned else .lock).executes = false
    split <;> rfl
  | start hp htasks =>
    rename_i b rest
    refine h.of_worker hx rfl rfl rfl ?_ ?_
    · rw [htasks, hp, List.count_cons]
      simp [WorkerPoint.runs, setWorker, Nat.add_assoc]
    · rw [hp]
      show (s.started ++ [b]).count e + 0 + _ = _
      rw [count_concat]
      rfl
  | finish hp =>
    rename_i b
    have hcount : (s.finished ++ [b]).count e = s.finished.count e + if b = e then 1 else 0 :=
      count_concat s.finished e b
    refine h.of_worker hx rfl rfl rfl ?_ ?_
    · rw [hp]
      show x.tasks.count e + 0 + (s.finished ++ [b]).count e =
        x.tasks.count e + (if b = e then 1 else 0) + s.finished.count e
      omega
    · rw [hp]
      show s.started.count e + (if b = e then 1 else 0) + s.finished.count e =
        s.started.count e + 0 + (s.finished ++ [b]).count e
      omega
  | lock hp _ | enter hp _ | leave hp _ | relock hp _ | again hp _ | park hp _ | sleep hp
  | wake hp _ => exact hquiet rfl rfl rfl rfl rfl rfl (by rw [hp]; rfl) rfl

theorem notify_tasks (x : BlockingWorker) : x.notify.tasks = x.tasks := by
  unfold BlockingWorker.notify
  split <;> rfl

theorem notify_runs (x : BlockingWorker) : x.notify.point.runs e = x.point.runs e := by
  unfold BlockingWorker.notify
  split
  · rename_i hp
    rw [hp]
    rfl
  · rfl

theorem setWorker_notify_accounted (h : Accounted s e) (hx : s.workers[w]? = some x) :
    Accounted (s.setWorker w x.notify) e := by
  refine h.of_worker hx rfl rfl rfl ?_ ?_
  · rw [notify_tasks, notify_runs]
    rfl
  · rw [notify_runs]
    rfl

theorem callerTurn_accounted (h : Accounted s e) (hk : s.callers[k]? = some p)
    (hturn : CallerTurn s k p s') : Accounted s' e := by
  cases hturn with
  | push hy _ => exact h.of_push hk hy rfl rfl rfl rfl rfl
  | notify hx => exact (setWorker_notify_accounted h hx).of_caller hk rfl rfl rfl rfl rfl rfl
  | compare _ | keep | take | assign => exact h.of_caller hk rfl rfl rfl rfl rfl rfl

theorem step_accounted (h : Accounted s e) (hstep : s.step a = some s') : Accounted s' e := by
  cases a with
  | worker w =>
    obtain ⟨x, hx, hturn⟩ := runWorker_cases hstep
    exact turn_accounted h hx hturn
  | wakeSpuriously w =>
    obtain ⟨x, hx, hp, rfl⟩ := wakeSpuriously_cases hstep
    exact h.of_worker hx rfl rfl rfl (by rw [hp]; rfl) (by rw [hp]; rfl)
  | register k =>
    obtain ⟨⟨hk, -⟩, rfl⟩ := eq_of_guard hstep
    exact h.of_register hk rfl rfl rfl rfl rfl
  | select k =>
    obtain ⟨⟨hk, -⟩, rfl⟩ := eq_of_guard hstep
    exact h.of_caller hk rfl rfl rfl rfl rfl rfl
  | caller k =>
    obtain ⟨p, hk, hturn⟩ := runCaller_cases hstep
    exact callerTurn_accounted h hk hturn
  | destroy =>
    obtain ⟨-, rfl⟩ | ⟨w, x, -, hx, rfl⟩ | ⟨w, x, -, hx, rfl⟩ := destroy_cases hstep
    · exact ⟨h.once, h.started⟩
    · exact h.of_worker hx rfl rfl rfl rfl rfl
    · have hnotify := setWorker_notify_accounted h hx
      exact ⟨hnotify.once, hnotify.started⟩

end Xyco.Task.BlockingRegistry
