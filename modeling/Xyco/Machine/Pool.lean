import Xyco.Machine.Table

/-!
# A queue of entries and the workers that serve it

Entries go in at the front of the queue and leave it at the back. A worker is idle or has a job; an
idle one takes the last entry and makes a job of it. A census counts entries and jobs of one kind
together, so that taking an entry changes nothing. A weight adds up what is left to do, so that
taking an entry makes it smaller.
-/

namespace Xyco

/-- Entries of type `ε`, jobs of type `κ`; `none` is an idle worker. -/
structure Pool (ε κ : Type*) where
  queue : List ε
  workers : List (Option κ)
deriving DecidableEq, Repr

namespace Pool

open Table

variable {ε κ : Type*} {p p' : Pool ε κ} {w : ℕ} {j j' : Option κ} {start : ε → κ}

def push (p : Pool ε κ) (e : ε) : Pool ε κ := { p with queue := e :: p.queue }

/-- The worker `w` goes over to the job `j`. -/
def assign (p : Pool ε κ) (w : ℕ) (j : Option κ) : Pool ε κ :=
  { p with workers := p.workers.set w j }

/-- The job of the worker `w`. -/
def job (p : Pool ε κ) (w : ℕ) : Option κ := p.workers[w]?.join

/-- The idle worker `w` takes the last entry. -/
def take (start : ε → κ) (p : Pool ε κ) (w : ℕ) : Option (Pool ε κ) :=
  match p.workers[w]?, p.queue.getLast? with
  | some none, some e =>
    some { queue := p.queue.dropLast, workers := p.workers.set w (some (start e)) }
  | _, _ => none

/-- What happens to a pool whose jobs are done in one go. -/
inductive Action (ε : Type*) where
  | push (e : ε)
  | take (w : ℕ)
  | finish (w : ℕ)
deriving DecidableEq, Repr

def step (start : ε → κ) (p : Pool ε κ) : Action ε → Option (Pool ε κ)
  | .push e => some (p.push e)
  | .take w => p.take start w
  | .finish w => some (p.assign w none)

/-- The number of entries in `q` and jobs in `k`. -/
def census (q : ε → Bool) (k : κ → Bool) (p : Pool ε κ) : ℕ :=
  p.queue.countP q + p.workers.countP fun j => j.any k

/-- The number of workers with a job in `k`. -/
def busy (k : κ → Bool) (p : Pool ε κ) : ℕ := p.workers.countP fun j => j.any k

/-- The sum of `we` over the entries and of `wk` over the jobs. -/
def weight (we : ε → ℕ) (wk : κ → ℕ) (p : Pool ε κ) : ℕ :=
  (p.queue.map we).sum + (p.workers.map fun j => j.elim 0 wk).sum

theorem worker_of_job {x : κ} (h : p.job w = some x) : p.workers[w]? = some (some x) := by
  unfold job at h
  exact Option.join_eq_some_iff.mp h

theorem take_cases (h : p.take start w = some p') :
    ∃ e queue, p.workers[w]? = some none ∧ p.queue = queue ++ [e] ∧
      p' = { queue := queue, workers := p.workers.set w (some (start e)) } := by
  unfold take at h
  split at h
  · rename_i e hw hlast
    refine ⟨e, p.queue.dropLast, hw, ?_, (Option.some.inj h).symm⟩
    exact (List.dropLast_append_getLast? e hlast).symm
  · cases h

theorem take_of_ne_nil (start : ε → κ) (hw : p.workers[w]? = some none) (hq : p.queue ≠ []) :
    ∃ p', p.take start w = some p' := by
  obtain ⟨e, he⟩ := Option.ne_none_iff_exists'.mp (mt List.getLast?_eq_none_iff.mp hq)
  exact ⟨⟨p.queue.dropLast, p.workers.set w (some (start e))⟩, by simp only [take, hw, he]⟩

theorem take_workers_length (h : p.take start w = some p') :
    p'.workers.length = p.workers.length := by
  obtain ⟨e, queue, -, -, rfl⟩ := take_cases h
  simp

theorem assign_workers_length (p : Pool ε κ) (w : ℕ) (j : Option κ) :
    (p.assign w j).workers.length = p.workers.length := by
  simp [assign]

/-- A single worker is worker 0. -/
theorem eq_zero_of_worker (hone : p.workers.length = 1) (h : p.workers[w]? = some j) : w = 0 := by
  obtain ⟨hw, -⟩ := List.getElem?_eq_some_iff.mp h
  omega

theorem job_assign (h : p.workers[w]? = some j) (j' : Option κ) : (p.assign w j').job w = j' := by
  simp only [job, assign, get_set_self h, Option.join_some]

variable {q : ε → Bool} {k l : κ → Bool}

theorem census_push (q : ε → Bool) (k : κ → Bool) (p : Pool ε κ) (e : ε) :
    (p.push e).census q k = p.census q k + if q e then 1 else 0 := by
  simp only [census, push, List.countP_cons]
  omega

theorem census_assign (h : p.workers[w]? = some j) (q : ε → Bool) (k : κ → Bool)
    (j' : Option κ) :
    (p.assign w j').census q k + (if j.any k then 1 else 0) =
      p.census q k + if j'.any k then 1 else 0 := by
  have := countP_set h (fun j => j.any k) j'
  simp only [census, assign]
  omega

/-- An entry counts the same in the queue and as a job. -/
theorem census_take (h : p.take start w = some p') (hk : ∀ e, k (start e) = q e) :
    p'.census q k = p.census q k := by
  obtain ⟨e, queue, hw, hq, rfl⟩ := take_cases h
  have hset := countP_set hw (fun j => j.any k) (some (start e))
  simp only [Option.any_none, Bool.false_eq_true, if_false, Option.any_some, hk] at hset
  have hqueue : p.queue.countP q = queue.countP q + if q e then 1 else 0 := by
    rw [hq, List.countP_append, List.countP_singleton]
  simp only [census]
  omega

theorem census_pos_of_job {x : κ} (h : p.workers[w]? = some (some x)) (hx : k x = true)
    (q : ε → Bool) : 0 < p.census q k := by
  have : 0 < p.workers.countP fun j => j.any k :=
    List.countP_pos_iff.mpr ⟨some x, List.mem_of_getElem? h, hx⟩
  unfold census
  omega

theorem busy_assign (h : p.workers[w]? = some j) (k : κ → Bool) (j' : Option κ) :
    (p.assign w j').busy k + (if j.any k then 1 else 0) =
      p.busy k + if j'.any k then 1 else 0 :=
  countP_set h (fun j => j.any k) j'

/-- Jobs that are not the beginning of an entry stay the same when one is taken. -/
theorem busy_take (h : p.take start w = some p') (hk : ∀ e, k (start e) = false) :
    p'.busy k = p.busy k := by
  obtain ⟨e, queue, hw, -, rfl⟩ := take_cases h
  have hset := countP_set hw (fun j => j.any k) (some (start e))
  simp only [Option.any_none, Option.any_some, hk, Bool.false_eq_true, if_false] at hset
  exact hset

theorem busy_pos {x : κ} (h : p.job w = some x) (hx : k x = true) : 0 < p.busy k :=
  List.countP_pos_iff.mpr ⟨some x, List.mem_of_getElem? (worker_of_job h), hx⟩

theorem exists_of_busy_pos (h : 0 < p.busy k) :
    ∃ w x, p.job w = some x ∧ k x = true := by
  obtain ⟨j, hmem, hj⟩ := List.countP_pos_iff.mp h
  obtain ⟨x, rfl, hx⟩ := (Option.any_eq_true _ _).mp hj
  obtain ⟨w, hw⟩ := List.mem_iff_getElem?.mp hmem
  exact ⟨w, x, by rw [job, hw, Option.join_some], hx⟩

/-- A single worker with another job. -/
theorem busy_eq_zero_of_one {x : κ} (hone : p.workers.length = 1) (h : p.job w = some x)
    (hx : k x = false) : p.busy k = 0 := by
  by_contra hne
  obtain ⟨w', y, hy, hk⟩ := exists_of_busy_pos (Nat.pos_of_ne_zero hne)
  obtain rfl := eq_zero_of_worker hone (worker_of_job h)
  obtain rfl := eq_zero_of_worker hone (worker_of_job hy)
  rw [h] at hy
  obtain rfl := Option.some.inj hy
  rw [hx] at hk
  cases hk

theorem busy_mono (hk : ∀ x, k x = true → l x = true) : p.busy k ≤ p.busy l := by
  apply List.countP_mono_left
  intro j _ hj
  obtain ⟨x, rfl, hx⟩ := (Option.any_eq_true _ _).mp hj
  exact hk x hx

theorem busy_le_census (hk : ∀ x, k x = true → l x = true) (q : ε → Bool) :
    p.busy k ≤ p.census q l :=
  Nat.le_trans (busy_mono hk) (Nat.le_add_left _ _)

section Weight

variable {we : ε → ℕ} {wk : κ → ℕ}

theorem weight_push (we : ε → ℕ) (wk : κ → ℕ) (p : Pool ε κ) (e : ε) :
    (p.push e).weight we wk = p.weight we wk + we e := by
  simp only [weight, push, List.map_cons, List.sum_cons]
  omega

theorem weight_assign (h : p.workers[w]? = some j) (we : ε → ℕ) (wk : κ → ℕ) (j' : Option κ) :
    (p.assign w j').weight we wk + j.elim 0 wk = p.weight we wk + j'.elim 0 wk := by
  have := sum_map_set h (fun j => j.elim 0 wk) j'
  simp only [weight, assign]
  omega

theorem weight_take_lt (h : p.take start w = some p') (hlt : ∀ e, wk (start e) < we e) :
    p'.weight we wk < p.weight we wk := by
  obtain ⟨e, queue, hw, hq, rfl⟩ := take_cases h
  have hset := sum_map_set hw (fun j => j.elim 0 wk) (some (start e))
  have he := hlt e
  simp only [Option.elim_none, Option.elim_some] at hset
  simp only [weight, hq, List.map_append, List.sum_append, List.map_singleton, List.sum_singleton]
  omega

end Weight

end Pool

end Xyco
