import Xyco.Task.Fork

/-!
# Proofs: where the branches are

A branch that was spawned is at one place: in the run queue, with a worker, suspended, or at its end.
The steps that `select` and `join` have in common move branches between these places and neither lose
nor double one. The same holds of the future itself.
-/

namespace Xyco.Task

variable {n : ℕ} {κ : Type*}

def Job.isBranch (i : Fin n) : Job n κ → Bool
  | .branch k _ => k = i
  | _ => false

def Job.isPoll : Job n κ → Bool
  | .poll => true
  | _ => false

namespace Fork

/-- The number of places where branch `i` is, its end apart. -/
def places (f : Fork n κ) (i : Fin n) : ℕ :=
  f.pool.census (fun e => e = .branch i) (Job.isBranch i) + f.suspended.count i

/-- The number of times that the future itself is in the run queue or about to be polled. -/
def selves (f : Fork n κ) : ℕ := f.pool.census (fun e => e = .self) Job.isPoll

/-- 1 for a branch that was spawned. -/
def live (f : Fork n κ) (i : Fin n) : ℕ := if i.val < f.spawned then 1 else 0

theorem live_le_one (f : Fork n κ) (i : Fin n) : f.live i ≤ 1 := by
  unfold live
  split <;> omega

variable {f f' : Fork n κ} {start : κ} {a : ForkAction n} {w : ℕ} {i k : Fin n}

theorem places_init (others : ℕ) (i : Fin n) : (init others : Fork n κ).places i = 0 := by
  simp [places, init, Pool.census, Job.isBranch, List.countP_replicate]

theorem selves_init (others : ℕ) : (init others : Fork n κ).selves = 1 := by
  have hidle : (List.replicate others (none : Option (Job n κ))).countP
      (fun j => j.any Job.isPoll) = 0 := by
    simp [List.countP_replicate]
  simp only [selves, init, Pool.census, List.countP_nil, List.countP_cons, hidle]
  rfl

theorem spawn_cases (h : f.spawn w = some f') :
    ∃ hlt : f.spawned < n, f.pool.job w = some .spawning ∧ f' = { f with
      pool := f.pool.push (.branch ⟨f.spawned, hlt⟩), spawned := f.spawned + 1 } := by
  unfold spawn at h
  split at h
  · rename_i hjob
    split at h
    · rename_i hlt
      exact ⟨hlt, hjob, (Option.some.inj h).symm⟩
    · cases h
  · cases h

theorem pend_cases (h : f.pend w = some f') :
    f.pool.job w = some .spawning ∧ ¬ f.spawned < n ∧
      f' = { f with pool := f.pool.assign w none } := by
  unfold pend at h
  split at h
  · rename_i hjob
    split at h
    · cases h
    · rename_i hlt
      exact ⟨hjob, hlt, (Option.some.inj h).symm⟩
  · cases h

theorem suspend_cases [DecidableEq κ] (h : f.suspend start w = some f') :
    ∃ k, f.pool.job w = some (.branch k start) ∧
      f' = { f with pool := f.pool.assign w none, suspended := k :: f.suspended } := by
  unfold suspend at h
  split at h
  · rename_i k stage hjob
    split at h
    · rename_i hstage
      subst hstage
      exact ⟨k, hjob, (Option.some.inj h).symm⟩
    · cases h
  · cases h

theorem wake_cases (h : f.wake k = some f') :
    k ∈ f.suspended ∧ f' = { f with
      pool := f.pool.push (.branch k), suspended := f.suspended.erase k } :=
  Machine.eq_of_guard h

/-- A worker with branch `k` goes over to something else. -/
theorem places_assign_branch {stage : κ} {j : Option (Job n κ)}
    (h : f.pool.job w = some (.branch k stage)) (hpool : f'.pool = f.pool.assign w j)
    (hsuspended : f'.suspended = f.suspended) (i : Fin n) :
    f'.places i + (if k = i then 1 else 0) =
      f.places i + if j.any (Job.isBranch i) then 1 else 0 := by
  have := Pool.census_assign (Pool.worker_of_job h) (fun e => e = .branch i) (Job.isBranch i) j
  simp only [Option.any_some, Job.isBranch, decide_eq_true_eq] at this
  simp only [places, hpool, hsuspended]
  omega

/-- A worker ends branch `k`. -/
theorem places_end {stage : κ} (h : f.pool.job w = some (.branch k stage))
    (hpool : f'.pool = f.pool.assign w none) (hsuspended : f'.suspended = f.suspended)
    (i : Fin n) : f'.places i + (if k = i then 1 else 0) = f.places i :=
  places_assign_branch h hpool hsuspended i

/-- A worker without a branch goes over to something that is no branch. -/
theorem places_assign_other {x : Job n κ} {j : Option (Job n κ)} (h : f.pool.job w = some x)
    (hpool : f'.pool = f.pool.assign w j) (hsuspended : f'.suspended = f.suspended)
    (hx : x.isBranch i = false) (hj : j.any (Job.isBranch i) = false) :
    f'.places i = f.places i := by
  have := Pool.census_assign (Pool.worker_of_job h) (fun e => e = .branch i) (Job.isBranch i) j
  simp only [Option.any_some, hx, hj, Bool.false_eq_true, if_false, Nat.add_zero] at this
  simp only [places, hpool, hsuspended, this]

theorem selves_assign {x : Job n κ} {j : Option (Job n κ)} (h : f.pool.job w = some x)
    (hpool : f'.pool = f.pool.assign w j) :
    f'.selves + (if x.isPoll then 1 else 0) = f.selves + if j.any Job.isPoll then 1 else 0 := by
  have := Pool.census_assign (Pool.worker_of_job h) (fun e => e = .self) Job.isPoll j
  simp only [Option.any_some] at this
  simp only [selves, hpool]
  exact this

/-- A worker polls the future itself. -/
theorem selves_poll {j : Option (Job n κ)} (h : f.pool.job w = some .poll)
    (hpool : f'.pool = f.pool.assign w j) (hj : j.any Job.isPoll = false) :
    f'.selves + 1 = f.selves := by
  have := selves_assign h hpool
  rw [hj] at this
  exact this

theorem selves_assign_other {x : Job n κ} {j : Option (Job n κ)} (h : f.pool.job w = some x)
    (hpool : f'.pool = f.pool.assign w j) (hx : x.isPoll = false)
    (hj : j.any Job.isPoll = false) : f'.selves = f.selves := by
  have := selves_assign h hpool
  rw [hx, hj] at this
  exact this

/-- The future itself is registered. -/
theorem places_push_self (hpool : f'.pool = f.pool.push .self)
    (hsuspended : f'.suspended = f.suspended) (i : Fin n) : f'.places i = f.places i := by
  simp [places, hpool, hsuspended, Pool.census_push]

theorem selves_push_self (hpool : f'.pool = f.pool.push .self) : f'.selves = f.selves + 1 := by
  simp [selves, hpool, Pool.census_push]

/-! ## How many workers are at some point of a branch -/

variable {q : Fin n → κ → Bool}

theorem busy_assign {stage : κ} {j : Option (Job n κ)}
    (h : f.pool.job w = some (.branch k stage)) (hpool : f'.pool = f.pool.assign w j)
    (q : Fin n → κ → Bool) :
    f'.pool.busy (Job.within q) + (if q k stage then 1 else 0) =
      f.pool.busy (Job.within q) + if j.any (Job.within q) then 1 else 0 := by
  rw [hpool]
  exact Pool.busy_assign (Pool.worker_of_job h) (Job.within q) j

theorem busy_assign_other {x : Job n κ} {j : Option (Job n κ)} (h : f.pool.job w = some x)
    (hpool : f'.pool = f.pool.assign w j) (hx : x.within q = false)
    (hj : j.any (Job.within q) = false) : f'.pool.busy (Job.within q) = f.pool.busy (Job.within q) := by
  have := Pool.busy_assign (Pool.worker_of_job h) (Job.within q) j
  simp only [Option.any_some, hx, hj, Bool.false_eq_true, if_false, Nat.add_zero] at this
  rw [hpool, this]

/-! ## What a worker does in one step -/

/-- A worker ends branch `k`: it is at one place less, and nothing else changes. -/
theorem leave {stage : κ} (h : f.pool.job w = some (.branch k stage))
    (hf : { f with pool := f.pool.assign w none } = f') :
    (∀ i, f'.places i + (if k = i then 1 else 0) = f.places i) ∧ f'.selves = f.selves ∧
      f'.ready = f.ready ∧ (∀ i, f'.live i = f.live i) ∧
      ∀ q, f'.pool.busy (Job.within q) + (if q k stage then 1 else 0) =
        f.pool.busy (Job.within q) := by
  have hpool : f'.pool = f.pool.assign w none := by rw [← hf]
  have hsuspended : f'.suspended = f.suspended := by rw [← hf]
  exact ⟨places_end h hpool hsuspended, selves_assign_other h hpool rfl rfl, by rw [← hf],
    fun i => by rw [← hf]; rfl, fun q => by simpa using busy_assign h hpool q⟩

/-- A worker goes on to another point of branch `k`. -/
theorem goOn {stage stage' : κ} (h : f.pool.job w = some (.branch k stage))
    (hf : { f with pool := f.pool.assign w (some (.branch k stage')) } = f') :
    (∀ i, f'.places i = f.places i) ∧ f'.selves = f.selves ∧ f'.ready = f.ready ∧
      (∀ i, f'.live i = f.live i) ∧
      ∀ q, f'.pool.busy (Job.within q) + (if q k stage then 1 else 0) =
        f.pool.busy (Job.within q) + if q k stage' then 1 else 0 := by
  have hpool : f'.pool = f.pool.assign w (some (.branch k stage')) := by rw [← hf]
  have hsuspended : f'.suspended = f.suspended := by rw [← hf]
  refine ⟨fun i => ?_, selves_assign_other h hpool rfl rfl, by rw [← hf],
    fun i => by rw [← hf]; rfl, busy_assign h hpool⟩
  have := places_assign_branch h hpool hsuspended i
  simpa [Job.isBranch] using this

/-- The future itself is registered by a worker that then ends branch `k`. -/
theorem register_leave {stage : κ} (h : f.pool.job w = some (.branch k stage))
    (hf : { f with pool := (f.pool.push .self).assign w none } = f') :
    (∀ i, f'.places i + (if k = i then 1 else 0) = f.places i) ∧ f'.selves = f.selves + 1 ∧
      f'.ready = f.ready ∧ ∀ i, f'.live i = f.live i := by
  have hjob : ({ f with pool := f.pool.push .self } : Fork n κ).pool.job w =
      some (.branch k stage) := h
  obtain ⟨hplaces, hselves, hready, hlive, -⟩ := leave hjob hf
  refine ⟨fun i => ?_, ?_, hready, hlive⟩
  · exact (hplaces i).trans (places_push_self (by rfl) (by rfl) i)
  · exact hselves.trans (selves_push_self (by rfl))

/-- The future itself is registered by a worker that then goes on to another point of branch `k`. -/
theorem register_goOn {stage stage' : κ} (h : f.pool.job w = some (.branch k stage))
    (hf : { f with pool := (f.pool.push .self).assign w (some (.branch k stage')) } = f') :
    (∀ i, f'.places i = f.places i) ∧ f'.selves = f.selves + 1 ∧ f'.ready = f.ready ∧
      (∀ i, f'.live i = f.live i) ∧
      ∀ q, f'.pool.busy (Job.within q) + (if q k stage then 1 else 0) =
        f.pool.busy (Job.within q) + if q k stage' then 1 else 0 := by
  have hjob : ({ f with pool := f.pool.push .self } : Fork n κ).pool.job w =
      some (.branch k stage) := h
  obtain ⟨hplaces, hselves, hready, hlive, hbusy⟩ := goOn hjob hf
  refine ⟨fun i => ?_, ?_, hready, hlive, hbusy⟩
  · exact (hplaces i).trans (places_push_self (by rfl) (by rfl) i)
  · exact hselves.trans (selves_push_self (by rfl))

/-- The future itself is polled: it is no longer in the run queue, and the branches stay where they
are. -/
theorem polled {ready : Bool} {j : Option (Job n κ)} (h : f.pool.job w = some .poll)
    (hj : j.any Job.isPoll = false) (hj' : ∀ i, j.any (Job.isBranch i) = false)
    (hq : ∀ q, j.any (Job.within q) = false)
    (hf : { f with ready := ready, pool := f.pool.assign w j } = f') :
    (∀ i, f'.places i = f.places i) ∧ f'.selves + 1 = f.selves ∧ f'.ready = ready ∧
      (∀ i, f'.live i = f.live i) ∧
      ∀ q, f'.pool.busy (Job.within q) = f.pool.busy (Job.within q) := by
  subst hf
  exact ⟨fun i => places_assign_other h rfl rfl rfl (hj' i), selves_poll h rfl hj, rfl,
    fun _ => rfl, fun q => busy_assign_other h rfl rfl (hq q)⟩

/-! ## Workers and places -/

/-- Besides a worker that is at branch `i`, there are not more workers in `i` than places left. -/
theorem busy_lt_places {stage : κ} (h : f.pool.job w = some (.branch i stage))
    (hstage : q i stage = false) :
    f.pool.busy (Job.within fun k st => decide (k = i) && q k st) < f.places i := by
  generalize hf : ({ f with pool := f.pool.assign w none } : Fork n κ) = f'
  obtain ⟨hplaces, -⟩ := leave h hf
  have hplace := hplaces i
  have hbusy : f'.pool.busy (Job.within fun k st => decide (k = i) && q k st) =
      f.pool.busy (Job.within fun k st => decide (k = i) && q k st) :=
    busy_assign_other h (by rw [← hf]) (by simp [Job.within, hstage]) rfl
  have hle : f'.pool.busy (Job.within fun k st => decide (k = i) && q k st) ≤ f'.places i := by
    apply Nat.le_trans (Pool.busy_le_census (l := Job.isBranch i) ?_ _) (Nat.le_add_right _ _)
    intro x hx
    cases x with
    | branch k st =>
      simp only [Job.within, Bool.and_eq_true] at hx
      exact hx.1
    | poll => cases hx
    | spawning => cases hx
  rw [if_pos rfl] at hplace
  omega

/-- Where there is no branch, no worker is in one. -/
theorem busy_eq_zero (h : ∀ i, f.places i = 0) (q : Fin n → κ → Bool) :
    f.pool.busy (Job.within q) = 0 := by
  by_contra hne
  obtain ⟨w, x, hjob, hx⟩ := Pool.exists_of_busy_pos (Nat.pos_of_ne_zero hne)
  cases x with
  | branch k st =>
    have hpos : 0 < f.pool.census (fun e => e = .branch k) (Job.isBranch k) :=
      Pool.census_pos_of_job (Pool.worker_of_job hjob) (by simp [Job.isBranch]) _
    have := h k
    unfold places at this
    omega
  | poll => cases hx
  | spawning => cases hx

variable [DecidableEq κ]

theorem step_busy (h : f.step start a = some f') (hq : ∀ i, q i start = false) :
    f'.pool.busy (Job.within q) = f.pool.busy (Job.within q) := by
  cases a with
  | take w =>
    obtain ⟨pool, htake, rfl⟩ := Option.map_eq_some_iff.mp h
    apply Pool.busy_take htake
    intro e
    cases e with
    | branch i => exact hq i
    | self => rfl
  | spawn w =>
    obtain ⟨hlt, -, rfl⟩ := spawn_cases h
    rfl
  | pend w =>
    obtain ⟨hjob, -, rfl⟩ := pend_cases h
    exact busy_assign_other hjob rfl rfl rfl
  | suspend w =>
    obtain ⟨k, hjob, rfl⟩ := suspend_cases h
    exact busy_assign_other hjob rfl (hq k) rfl
  | wake k =>
    obtain ⟨-, rfl⟩ := wake_cases h
    rfl

/-- What holds of every worker still does after a common step. -/
theorem step_workers {P : Option (Job n κ) → Prop} (h : f.step start a = some f') (hidle : P none)
    (hentry : ∀ e, P (some (Entry.job start e))) (hall : ∀ j ∈ f.pool.workers, P j) :
    ∀ j ∈ f'.pool.workers, P j := by
  cases a with
  | take w =>
    obtain ⟨pool, htake, rfl⟩ := Option.map_eq_some_iff.mp h
    obtain ⟨e, queue, -, -, rfl⟩ := Pool.take_cases htake
    exact Table.forall_mem_set hall (hentry e)
  | spawn w =>
    obtain ⟨hlt, -, rfl⟩ := spawn_cases h
    exact hall
  | pend w =>
    obtain ⟨-, -, rfl⟩ := pend_cases h
    exact Table.forall_mem_set hall hidle
  | suspend w =>
    obtain ⟨k, -, rfl⟩ := suspend_cases h
    exact Table.forall_mem_set hall hidle
  | wake k =>
    obtain ⟨-, rfl⟩ := wake_cases h
    exact hall

/-! ## What the common steps keep -/

theorem step_workers_length (h : f.step start a = some f') :
    f'.pool.workers.length = f.pool.workers.length := by
  cases a with
  | take w =>
    obtain ⟨pool, htake, rfl⟩ := Option.map_eq_some_iff.mp h
    exact Pool.take_workers_length htake
  | spawn w =>
    obtain ⟨hlt, -, rfl⟩ := spawn_cases h
    rfl
  | pend w =>
    obtain ⟨-, -, rfl⟩ := pend_cases h
    exact Pool.assign_workers_length _ _ _
  | suspend w =>
    obtain ⟨k, -, rfl⟩ := suspend_cases h
    exact Pool.assign_workers_length _ _ _
  | wake k =>
    obtain ⟨-, rfl⟩ := wake_cases h
    rfl

/-- A common step takes no branch from its one place, but for a branch that it spawns. -/
theorem step_places (h : f.step start a = some f') (i : Fin n) :
    f'.places i + f.live i = f.places i + f'.live i := by
  cases a with
  | take w =>
    obtain ⟨pool, htake, rfl⟩ := Option.map_eq_some_iff.mp h
    have hcensus : pool.census (fun e => e = .branch i) (Job.isBranch i) =
        f.pool.census (fun e => e = .branch i) (Job.isBranch i) := by
      apply Pool.census_take htake
      intro e
      cases e <;> simp [Entry.job, Job.isBranch]
    simp only [places, live, hcensus]
  | spawn w =>
    obtain ⟨hlt, -, rfl⟩ := spawn_cases h
    simp only [places, live, Pool.census_push, Entry.branch.injEq, decide_eq_true_eq, Fin.ext_iff]
    split <;> split <;> split <;> omega
  | pend w =>
    obtain ⟨hjob, -, rfl⟩ := pend_cases h
    have hplaces : ({ f with pool := f.pool.assign w none } : Fork n κ).places i = f.places i :=
      places_assign_other hjob rfl rfl rfl rfl
    simp only [live, hplaces]
  | suspend w =>
    obtain ⟨k, hjob, rfl⟩ := suspend_cases h
    have := Pool.census_assign (Pool.worker_of_job hjob) (fun e => e = .branch i)
      (Job.isBranch i) none
    simp only [Option.any_some, Option.any_none, Job.isBranch, decide_eq_true_eq,
      Bool.false_eq_true, if_false] at this
    simp only [places, live, List.count_cons, beq_iff_eq]
    omega
  | wake k =>
    obtain ⟨hmem, rfl⟩ := wake_cases h
    have hpos : i = k → 0 < f.suspended.count i := fun hik =>
      List.count_pos_iff.mpr (hik ▸ hmem)
    simp only [places, live, Pool.census_push, Entry.branch.injEq, decide_eq_true_eq,
      List.count_erase, beq_iff_eq]
    by_cases hik : i = k
    · have := hpos hik
      rw [if_pos hik.symm]
      omega
    · rw [if_neg (Ne.symm hik)]
      omega

theorem step_selves (h : f.step start a = some f') : f'.selves = f.selves := by
  cases a with
  | take w =>
    obtain ⟨pool, htake, rfl⟩ := Option.map_eq_some_iff.mp h
    apply Pool.census_take htake
    intro e
    cases e <;> simp [Entry.job, Job.isPoll]
  | spawn w =>
    obtain ⟨hlt, -, rfl⟩ := spawn_cases h
    simp [selves, Pool.census_push]
  | pend w =>
    obtain ⟨hjob, -, rfl⟩ := pend_cases h
    exact selves_assign_other hjob rfl rfl rfl
  | suspend w =>
    obtain ⟨k, hjob, rfl⟩ := suspend_cases h
    exact selves_assign_other hjob rfl rfl rfl
  | wake k =>
    obtain ⟨-, rfl⟩ := wake_cases h
    simp [selves, Pool.census_push]

/-- Once the last branch is spawned, `spawned` does not change. -/
theorem step_spawned (h : f.step start a = some f') (hn : f.spawned = n) : f'.spawned = n := by
  cases a with
  | take w =>
    obtain ⟨pool, -, rfl⟩ := Option.map_eq_some_iff.mp h
    exact hn
  | spawn w =>
    obtain ⟨hlt, -, -⟩ := spawn_cases h
    omega
  | pend w =>
    obtain ⟨-, -, rfl⟩ := pend_cases h
    exact hn
  | suspend w =>
    obtain ⟨k, -, rfl⟩ := suspend_cases h
    exact hn
  | wake k =>
    obtain ⟨-, rfl⟩ := wake_cases h
    exact hn

theorem step_ready (h : f.step start a = some f') : f'.ready = f.ready := by
  cases a with
  | take w =>
    obtain ⟨pool, -, rfl⟩ := Option.map_eq_some_iff.mp h
    rfl
  | spawn w =>
    obtain ⟨hlt, -, rfl⟩ := spawn_cases h
    rfl
  | pend w =>
    obtain ⟨-, -, rfl⟩ := pend_cases h
    rfl
  | suspend w =>
    obtain ⟨k, -, rfl⟩ := suspend_cases h
    rfl
  | wake k =>
    obtain ⟨-, rfl⟩ := wake_cases h
    rfl

end Fork

end Xyco.Task
