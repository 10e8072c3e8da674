import Xyco.Machine.Lock
import Xyco.Task.Blocking

/-!
# Proofs: the steps of the blocking registry

What a worker and what a caller does from the point it is at, and which of them holds the mutex of
the registry. A worker holds it from before its first test of `tasks_` to after the last one, all
the tasks it runs in between included.
-/

namespace Xyco.Task

namespace WorkerPoint

/-- The points of `run` inside the scope of `blocking_registry_lock_guard`. -/
def holdsRegistry : WorkerPoint → Bool
  | .drain | .execute _ | .relock => true
  | _ => false

def executes : WorkerPoint → Bool
  | .execute _ => true
  | _ => false

/-- The task of `event` is being run. -/
def runs (event : ℕ) : WorkerPoint → ℕ
  | .execute e => if e = event then 1 else 0
  | _ => 0

end WorkerPoint

namespace CallerPoint

/-- The points of `select` inside the scope of `lock_guard`. -/
def holdsRegistry : CallerPoint → Bool
  | .selecting | .keeping _ | .taking _ _ => true
  | _ => false

/-- The task of `event` is not queued yet. -/
def spawns (event : ℕ) : CallerPoint → ℕ
  | .spawning e _ _ => if e = event then 1 else 0
  | _ => 0

end CallerPoint

namespace BlockingRegistry

open Machine Table

variable {s s' : BlockingRegistry} {w k : ℕ} {x y : BlockingWorker} {p q : CallerPoint}

/-! ## What one step does -/

/-- What `run` does from the point of the worker `x`. -/
inductive Turn (s : BlockingRegistry) (w : ℕ) (x : BlockingWorker) : BlockingRegistry → Prop where
  | test (hp : x.point = .test) :
      Turn s w x (s.setWorker w { x with point := if x.ended then .returned else .lock })
  | lock (hp : x.point = .lock) (hfree : x.locked = false) :
      Turn s w x (s.setWorker w { x with locked := true, point := .lockRegistry })
  | enter (hp : x.point = .lockRegistry) (hfree : s.mutex = none) :
      Turn s w x ({ s with mutex := some (.worker w) }.setWorker w { x with point := .drain })
  | leave (hp : x.point = .drain) (htasks : x.tasks = []) :
      Turn s w x ({ s with mutex := none }.setWorker w { x with point := .check })
  | start {e : ℕ} {rest : List ℕ} (hp : x.point = .drain) (htasks : x.tasks = e :: rest) :
      Turn s w x ({ s with started := s.started ++ [e] }.setWorker w
        { x with tasks := rest, locked := false, point := .execute e })
  | finish {e : ℕ} (hp : x.point = .execute e) :
      Turn s w x ({ s with finished := s.finished ++ [e] }.setWorker w { x with point := .relock })
  | relock (hp : x.point = .relock) (hfree : x.locked = false) :
      Turn s w x (s.setWorker w { x with locked := true, point := .drain })
  | again (hp : x.point = .check) (hawake : x.awake = true) :
      Turn s w x (s.setWorker w { x with locked := false, point := .test })
  | park (hp : x.point = .check) (hawake : x.awake = false) :
      Turn s w x (s.setWorker w { x with point := .park })
  | sleep (hp : x.point = .park) :
      Turn s w x (s.setWorker w { x with locked := false, point := .asleep })
  | wake (hp : x.point = .woken) (hfree : x.locked = false) :
      Turn s w x (s.setWorker w { x with locked := true, point := .check })

theorem runWorker_cases (h : s.runWorker w = some s') :
    ∃ x, s.workers[w]? = some x ∧ Turn s w x s' := by
  unfold runWorker at h
  split at h
  · cases h
  · rename_i x hx
    refine ⟨x, hx, ?_⟩
    split at h
    · rename_i hp
      obtain rfl := Option.some.inj h
      exact .test hp
    · rename_i hp
      obtain ⟨hfree, rfl⟩ := eq_of_guard h
      exact .lock hp hfree
    · rename_i hp
      obtain ⟨hfree, rfl⟩ := eq_of_guard h
      exact .enter hp hfree
    · rename_i hp
      split at h
      · rename_i htasks
        obtain rfl := Option.some.inj h
        exact .leave hp htasks
      · rename_i e rest htasks
        obtain rfl := Option.some.inj h
        exact .start hp htasks
    · rename_i e hp
      obtain rfl := Option.some.inj h
      exact .finish hp
    · rename_i hp
      obtain ⟨hfree, rfl⟩ := eq_of_guard h
      exact .relock hp hfree
    · rename_i hp
      split at h
      · rename_i hawake
        obtain rfl := Option.some.inj h
        exact .again hp hawake
      · rename_i hawake
        obtain rfl := Option.some.inj h
        exact .park hp (Bool.eq_false_iff.mpr hawake)
    · rename_i hp
      obtain rfl := Option.some.inj h
      exact .sleep hp
    · rename_i hp
      obtain ⟨hfree, rfl⟩ := eq_of_guard h
      exact .wake hp hfree
    · cases h
    · cases h

theorem wakeSpuriously_cases (h : s.wakeSpuriously w = some s') :
    ∃ x, s.workers[w]? = some x ∧ x.point = .asleep ∧
      s' = s.setWorker w { x with point := .woken } := by
  unfold wakeSpuriously at h
  split at h
  · cases h
  · rename_i x hx
    obtain ⟨hp, rfl⟩ := eq_of_guard h
    exact ⟨x, hx, hp, rfl⟩

/-- What a call does from the point `p`. -/
inductive CallerTurn (s : BlockingRegistry) (k : ℕ) : CallerPoint → BlockingRegistry → Prop where
  | compare {e best next : ℕ} (best' : ℕ) :
      CallerTurn s k (.spawning e best next) (s.goTo k (.spawning e best' (next + 1)))
  | push {e best next : ℕ} {y : BlockingWorker} (hy : s.workers[best]? = some y)
      (hfree : y.locked = false) :
      CallerTurn s k (.spawning e best next)
        ((s.setWorker best { y with tasks := y.tasks ++ [e] }).goTo k (.notifying best))
  | notify {w : ℕ} {x : BlockingWorker} (hx : s.workers[w]? = some x) :
      CallerTurn s k (.notifying w) ((s.setWorker w x.notify).goTo k .idle)
  | keep : CallerTurn s k .selecting
      (s.goTo k (.keeping (s.events.filter fun e => !s.hasResult e)))
  | take {newEvents : List ℕ} : CallerTurn s k (.keeping newEvents)
      (s.goTo k (.taking newEvents (s.events.filter fun e => s.hasResult e)))
  | assign {newEvents events : List ℕ} : CallerTurn s k (.taking newEvents events)
      ({ s with
        events := newEvents
        mutex := none
        selected := s.selected ++ events }.goTo k .idle)

theorem runCaller_cases (h : s.runCaller k = some s') :
    ∃ p, s.callers[k]? = some p ∧ CallerTurn s k p s' := by
  unfold runCaller at h
  split at h
  · rename_i e best next hk
    refine ⟨_, hk, ?_⟩
    split at h
    · obtain rfl := Option.some.inj h
      exact .compare _
    · rename_i y _ hy
      obtain ⟨hfree, rfl⟩ := eq_of_guard h
      exact .push hy hfree
    · cases h
  · rename_i w hk
    refine ⟨_, hk, ?_⟩
    split at h
    · rename_i x hx
      obtain rfl := Option.some.inj h
      exact .notify hx
    · cases h
  · rename_i hk
    obtain rfl := Option.some.inj h
    exact ⟨_, hk, .keep⟩
  · rename_i newEvents hk
    obtain rfl := Option.some.inj h
    exact ⟨_, hk, .take⟩
  · rename_i newEvents events hk
    obtain rfl := Option.some.inj h
    exact ⟨_, hk, .assign⟩
  · cases h
  · cases h

theorem destroy_cases (h : s.destroy = some s') :
    (s.destructor = .idle ∧
      s' = { s with destructor := if s.workers = [] then .joining else .ending 0 }) ∨
    (∃ w x, s.destructor = .ending w ∧ s.workers[w]? = some x ∧
      s' = { s.setWorker w { x with ended := true } with destructor := .notifying w }) ∨
    (∃ w x, s.destructor = .notifying w ∧ s.workers[w]? = some x ∧
      s' = { s.setWorker w x.notify with
        destructor := if w + 1 < s.workers.length then .ending (w + 1) else .joining }) := by
  unfold destroy at h
  split at h
  · rename_i hd
    exact Or.inl ⟨hd, (Option.some.inj h).symm⟩
  · rename_i w hd
    split at h
    · rename_i x hx
      exact Or.inr (Or.inl ⟨w, x, hd, hx, (Option.some.inj h).symm⟩)
    · cases h
  · rename_i w hd
    split at h
    · rename_i x hx
      exact Or.inr (Or.inr ⟨w, x, hd, hx, (Option.some.inj h).symm⟩)
    · cases h
  · cases h

end BlockingRegistry

end Xyco.Task
