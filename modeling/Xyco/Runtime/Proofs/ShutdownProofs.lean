import Xyco.Runtime.Proofs.RunQueueStepProofs

/-!
# Proofs: the end of the workers

A worker whose `suspend_flag_` is set goes on with the entry it has, and takes no other. From every
point it is a few steps to the end of `run_in_place`. On the way it may have to wait for the mutex of
a queue, which is with a worker that can go on, and for what it calls: `poll_wrapper`, `resume` and
`Driver::poll` take as long as they take.
-/

namespace Xyco.Runtime

namespace LoopPoint

theorem left_le (p : LoopPoint) : p.left ≤ 7 := by
  cases p <;> simp [left]

theorem engaged_le (p : LoopPoint) : p.engaged ≤ 1 := by
  cases p <;> simp [engaged]

end LoopPoint

namespace RunQueue

open Machine Table

variable {handleOf : ℕ → ℕ} {s s' : RunQueue} {a : QueueAction} {w q n : ℕ} {ok : Bool}
variable {x : LoopWorker}

/-! ## Every worker is at a queue that exists -/

structure Indexed (s : RunQueue) : Prop where
  size : s.queues.length = s.workers.length + 1
  within : ∀ (w : ℕ) x, s.workers[w]? = some x → ∀ q, x.point.queue = some q → q < s.queues.length

theorem indexed_init (n : ℕ) : Indexed (init n) := by
  constructor
  · simp [init]
  · intro w x hx q hq
    obtain rfl := List.eq_of_mem_replicate (List.mem_of_getElem? hx)
    cases hq

theorem Indexed.advance (hs : Indexed s) {y : LoopWorker} (hadv : Advance s s' w ok x y) :
    Indexed s' := by
  have hw : w < s.workers.length := (List.getElem?_eq_some_iff.mp hadv.worker).1
  have hsize := hs.size
  refine ⟨?_, ?_⟩
  · rw [hadv.queues, hadv.workers, List.length_set, hsize]
  · rw [hadv.queues, hadv.workers]
    refine forall_set hs.within fun q hq => ?_
    rcases hadv.queue q hq with hq | rfl | rfl
    · exact hs.within w x hadv.worker q hq
    · omega
    · omega

theorem step_indexed (hs : Indexed s) (hstep : s.step handleOf a = some s') : Indexed s' := by
  cases ha : isWorker a with
  | true =>
    cases a <;> cases ha
    obtain ⟨x, y, hadv⟩ := runWorker_advance hstep
    exact hs.advance hadv
  | false =>
    cases step_outside hstep ha with
    | nothing => exact hs
    | enqueue henqueue _ =>
      obtain ⟨h, -, -, rfl⟩ := enqueue_cases henqueue
      exact ⟨List.length_set.trans hs.size,
        fun w x hx q hq => (hs.within w x hx q hq).trans_eq List.length_set.symm⟩
    | suspend hx =>
      have hsame := hs.within _ _ hx
      exact ⟨hs.size.trans (congrArg (· + 1) List.length_set.symm), forall_set hs.within hsame⟩
    | start hx _ =>
      exact ⟨hs.size.trans (congrArg (· + 1) List.length_set.symm), forall_set hs.within nofun⟩

/-! ## What is left to do -/

/-- A number that depends on the point of the worker `w`. -/
def measureAt (f : LoopPoint → ℕ) (w : ℕ) (s : RunQueue) : ℕ := s.workers[w]?.elim 0 fun x => f x.point

theorem measureAt_eq (f : LoopPoint → ℕ) (hx : s.workers[w]? = some x) :
    measureAt f w s = f x.point := by
  rw [measureAt, hx, Option.elim_some]

theorem measureAt_set (f : LoopPoint → ℕ) {y : LoopWorker} {v : ℕ} (hx : s.workers[v]? = some x)
    (hworkers : s'.workers = s.workers.set v y) (w : ℕ) :
    measureAt f w s' = if w = v then f y.point else measureAt f w s := by
  unfold measureAt
  rw [hworkers]
  exact elim_set hx _ _ y w

theorem measureAt_le (f : LoopPoint → ℕ) {b : ℕ} (hf : ∀ p, f p ≤ b) (w : ℕ) (s : RunQueue) :
    measureAt f w s ≤ b := by
  unfold measureAt
  cases s.workers[w]? with
  | none => exact Nat.zero_le b
  | some x => exact hf x.point

/-- A worker that halts goes on: its own number of steps gets smaller, and nobody else's changes. -/
theorem advance_halting {y : LoopWorker} {v : ℕ} (hs : Halting s) (hadv : Advance s s' v ok x y)
    (w : ℕ) : Halting s' ∧
      measureAt LoopPoint.left w s' + (if v = w then 1 else 0) ≤ measureAt LoopPoint.left w s ∧
      measureAt LoopPoint.engaged w s' + (if v = w ∧ x.point.resumes ok = true then 1 else 0) ≤
        measureAt LoopPoint.engaged w s := by
  -- a worker that has left the loop does not take a step
  have hflag : x.suspendFlag = true :=
    (hs x (List.mem_of_getElem? hadv.worker)).resolve_right hadv.runs
  have hleft := hadv.left hflag
  have hengaged := hadv.engaged hflag
  refine ⟨?_, ?_, ?_⟩
  · unfold Halting
    rw [hadv.workers]
    refine forall_mem_set hs ?_
    by_cases hstopped : y.point = .stopped
    · exact Or.inr hstopped
    · exact Or.inl ((hadv.flag hstopped).trans hflag)
  · rw [measureAt_set _ hadv.worker hadv.workers]
    by_cases hvw : v = w
    · subst hvw
      rw [if_pos rfl, if_pos rfl, measureAt_eq _ hadv.worker]
      exact hleft
    · rw [if_neg (Ne.symm hvw), if_neg hvw]
      exact Nat.le_refl _
  · rw [measureAt_set _ hadv.worker hadv.workers]
    by_cases hvw : v = w
    · subst hvw
      rw [if_pos rfl, measureAt_eq _ hadv.worker]
      simpa using hengaged
    · rw [if_neg (Ne.symm hvw), if_neg fun h => hvw h.1]
      exact Nat.le_refl _

theorem step_halting (hs : Halting s) (hstep : s.step handleOf a = some s')
    (hstart : isStart a = false) (w : ℕ) : Halting s' ∧
      measureAt LoopPoint.left w s' + (if isTurnOf w a then 1 else 0) ≤
        measureAt LoopPoint.left w s ∧
      measureAt LoopPoint.engaged w s' + (if resumes w s a then 1 else 0) ≤
        measureAt LoopPoint.engaged w s := by
  cases ha : isWorker a with
  | true =>
    cases a <;> cases ha
    rename_i v ok
    obtain ⟨x, y, hadv⟩ := runWorker_advance hstep
    obtain ⟨hhalting, hleft, hengaged⟩ := advance_halting hs hadv w
    refine ⟨hhalting, ?_, ?_⟩
    · simpa [isTurnOf] using hleft
    · simpa [resumes, hadv.worker] using hengaged
  | false =>
    have hturn : isTurnOf w a = false := by
      cases a <;> first | rfl | cases ha
    have hresumes : resumes w s a = false := by
      cases a <;> first | rfl | cases ha
    rw [hturn, hresumes]
    -- the points of the workers stay as they are
    have hsame : Halting s' ∧ ∀ f : LoopPoint → ℕ, measureAt f w s' = measureAt f w s := by
      cases step_outside hstep ha with
      | nothing => exact ⟨hs, fun _ => rfl⟩
      | enqueue henqueue _ =>
        obtain ⟨h, -, -, rfl⟩ := enqueue_cases henqueue
        exact ⟨hs, fun _ => rfl⟩
      | suspend hx =>
        refine ⟨forall_mem_set hs (Or.inl rfl), fun f => ?_⟩
        rw [measureAt_set f hx rfl]
        split
        · rename_i hw
          rw [hw, measureAt_eq f hx]
        · rfl
      | start _ _ => cases hstart
    obtain ⟨hhalting, hmeasure⟩ := hsame
    exact ⟨hhalting, (hmeasure _).le, (hmeasure _).le⟩

/-! ## Nobody waits for ever -/

/-- A worker that cannot go on has left the loop, or waits for a mutex. -/
theorem runWorker_blocked (hs : Indexed s) (hx : s.workers[w]? = some x)
    (hstep : s.runWorker w true = none) :
    x.point = .stopped ∨ ∃ q h v, x.point = .relock q ∧ s.queues[q]? = some h ∧ h.lock = some v := by
  have hqueue : ∀ q, x.point.queue = some q → ∃ h, s.queues[q]? = some h := fun q hq =>
    ⟨_, List.getElem?_eq_getElem (hs.within w x hx q hq)⟩
  unfold runWorker at hstep
  simp only [hx] at hstep
  cases hp : x.point with
  | stopped => exact Or.inl rfl
  | relock q =>
    obtain ⟨h, hq⟩ := hqueue q (by rw [hp]; rfl)
    simp only [hp, hq] at hstep
    cases hlock : h.lock with
    | none => simp [hlock] at hstep
    | some v => exact Or.inr ⟨q, h, v, rfl, hq, hlock⟩
  | tryLock q | drain q =>
    obtain ⟨h, hq⟩ := hqueue q (by rw [hp]; rfl)
    simp only [hp, hq] at hstep
    split at hstep <;> cases hstep
  | pop q entry =>
    obtain ⟨h, hq⟩ := hqueue q (by rw [hp]; rfl)
    simp only [hp, hq] at hstep
    cases hstep
  | head | poll q i entry =>
    simp only [hp] at hstep
    split at hstep <;> cases hstep
  | check q =>
    simp only [hp] at hstep
    split at hstep
    · cases hstep
    · split at hstep <;> cases hstep
  | resume q entry | drive =>
    simp only [hp] at hstep
    cases hstep

theorem exists_runWorker (hs : Indexed s) (hg : Guarded s) (hnot : ¬ s.Joinable) :
    ∃ w x, s.workers[w]? = some x ∧ (s.runWorker w true).isSome = true := by
  obtain ⟨x, hmem, hx⟩ : ∃ x ∈ s.workers, x.point ≠ .stopped := by
    simpa [Joinable] using hnot
  obtain ⟨w, hw⟩ := List.mem_iff_getElem?.mp hmem
  by_contra hstuck
  have hnone : ∀ v y, s.workers[v]? = some y → s.runWorker v true = none := by
    intro v y hy
    by_contra hsome
    exact hstuck ⟨v, y, hy, Option.isSome_iff_ne_none.mpr hsome⟩
  obtain ⟨q, h, v, -, hq, hlock⟩ := (runWorker_blocked hs hw (hnone w x hw)).resolve_left hx
  -- the owner of the mutex is in the middle of the queue
  obtain ⟨y, hv, hy⟩ := (Option.any_eq_true _ _).mp ((hg q h hq v).mpr hlock)
  rcases runWorker_blocked hs hv (hnone v y hv) with hp | ⟨r, -, -, hp, -, -⟩ <;>
    simp [hp, LoopPoint.holds] at hy

/-- `~RuntimeCore`: once `suspend` has been called on every worker, each worker takes at most seven
more steps in its loop, whatever is spawned or woken up meanwhile, and resumes at most one more
coroutine. As long as one of them has not left `run_in_place`, some worker is in `poll_wrapper`, in
`resume` or in `Driver::poll`, or some other one can take its next step. -/
theorem shutdown_completes (handleOf : ℕ → ℕ) (n : ℕ) (s : RunQueue)
    (hreach : Reachable (step handleOf) (init n) s) (hhalting : s.Halting) (as : List QueueAction)
    (hstart : ∀ a ∈ as, isStart a = false) (t : RunQueue) (hrun : run (step handleOf) s as = some t) :
    (∀ w, as.countP (isTurnOf w) ≤ 7 ∧ count (step handleOf) (resumes w) s as ≤ 1) ∧
      (¬ t.Joinable → ∃ w x, t.workers[w]? = some x ∧
        (x.point.calls = true ∨
          x.point.calls = false ∧ (t.step handleOf (.worker w true)).isSome = true)) := by
  have hkeep : ∀ s a t, Guarded s ∧ Indexed s → step handleOf s a = some t → Guarded t ∧ Indexed t :=
    fun s a t hs hstep => ⟨step_guarded hs.1 hstep, step_indexed hs.2 hstep⟩
  have hinv := hreach.invariant ⟨guarded_init, indexed_init n⟩ hkeep
  have halong : Along (step handleOf) (fun _ a => isStart a = false) s as := along_of_actions hstart
  refine ⟨fun w => ⟨?_, ?_⟩, fun hnot => ?_⟩
  · have hcount := countP_add_le_of_measure (I := Halting) (q := isTurnOf w)
      (measureAt LoopPoint.left w)
      (fun _ _ _ hs hg hstep => (step_halting hs hstep hg w).1)
      (fun _ _ _ hs hg hstep => (step_halting hs hstep hg w).2.1) hhalting halong hrun
    have := measureAt_le _ LoopPoint.left_le w s
    omega
  · have hcount : count (step handleOf) (resumes w) s as + measureAt LoopPoint.engaged w t ≤
        measureAt LoopPoint.engaged w s :=
      count_add_le_of_measure (I := Halting) _
        (fun _ _ _ hs hg hstep => (step_halting hs hstep hg w).1)
        (fun _ _ _ hs hg hstep => (step_halting hs hstep hg w).2.2) hhalting halong hrun
    have := measureAt_le _ LoopPoint.engaged_le w s
    omega
  · obtain ⟨hg, hi⟩ := run_invariant hkeep hinv hrun
    obtain ⟨w, x, hx, hsome⟩ := exists_runWorker hi hg hnot
    refine ⟨w, x, hx, ?_⟩
    cases hcalls : x.point.calls with
    | true => exact Or.inl rfl
    | false => exact Or.inr ⟨rfl, hsome⟩

/-- Two workers: when `suspend` is called, one is about to resume a coroutine and the other has the
mutex that the first one needs after that. -/
theorem shutdown_completes_two_workers :
    ∃ s t, Reachable (step id) (init 2) s ∧ s.Halting ∧
      run (step id) s [.worker 0 true, .worker 0 true] = some t ∧ t.runWorker 0 true = none ∧
      count (step id) (resumes 0) s [.worker 0 true, .worker 0 true] = 1 ∧
      ∃ w x, t.workers[w]? = some x ∧
        (x.point.calls = true ∨
          x.point.calls = false ∧ (t.step id (.worker w true)).isSome = true) := by
  obtain ⟨s, hs, hhalting, hcount, hcont⟩ : ∃ s, run (step id) (init 2)
      [.spawnImpl (some 7), .worker 0 true, .worker 0 true, .worker 0 true, .worker 0 true,
       .worker 0 true, .worker 0 true, .worker 0 true, .worker 1 true, .worker 1 true, .worker 1 true,
       .worker 1 true, .worker 1 true, .suspend 0, .suspend 1] = some s ∧ s.Halting ∧
      count (step id) (resumes 0) s [.worker 0 true, .worker 0 true] = 1 ∧
      (run (step id) s [.worker 0 true, .worker 0 true]).any
        (fun t => decide (t.runWorker 0 true = none ∧ ¬ t.Joinable)) = true := exists_run (by decide)
  obtain ⟨t, ht, hblocked, hnot⟩ := exists_run hcont
  have hreach : Reachable (step id) (init 2) s := ⟨_, hs⟩
  exact ⟨s, t, hreach, hhalting, ht, hblocked, hcount,
    (shutdown_completes id 2 s hreach hhalting _ (by decide) t ht).2 hnot⟩

end RunQueue

end Xyco.Runtime
