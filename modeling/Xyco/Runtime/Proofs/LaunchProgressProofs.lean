import Xyco.Machine.Lock
import Xyco.Runtime.Proofs.LaunchProofs

/-!
# Proofs: the launch comes to an end

`wait` has no predicate, but a worker is counted under the mutex that `wait` gives back: the last one
to count finds all others waiting. Every step of the launch makes what is left to do smaller, and as
long as something is left some thread can go on.
-/

namespace Xyco.Runtime.Launch

open Machine Table InitPoint

variable {s s' : Launch} {a : LaunchAction} {w t : ℕ} {p : InitPoint} {table : List (Option ℕ)}

/-! ## What is left to do -/

/-- The registries that the thread of an entry has still to add, with the entry itself. -/
def pending (registryNum : ℕ) : Option ℕ → ℕ
  | none => registryNum + 1
  | some k => registryNum - k

/-- The steps of `init_in_thread` that are left, without those of `add_thread`. -/
def rank : InitPoint → ℕ
  | .lock => 5
  | .adding => 4
  | .counting => 3
  | .waiting | .woken => 2
  | .notifying | .awake => 1
  | .running | .lookup | .stopped => 0

/-- The steps of the constructor that are left, without those of `add_thread` and the starts. -/
def creatorRank : CreatorPoint → ℕ
  | .adding => 2
  | .starting => 1
  | .built | .running | .lookup => 0

def left (s : Launch) : ℕ :=
  (s.localRegistries.map (pending s.registryNum)).sum + creatorRank s.creator +
    6 * (s.workerNum - s.workers.length) + (s.workers.map rank).sum

theorem addThread_left (h : s.addThread t = some table) :
    (table.map (pending s.registryNum)).sum + 1 =
      (s.localRegistries.map (pending s.registryNum)).sum := by
  unfold addThread at h
  split at h
  · rename_i ht
    obtain rfl := Option.some.inj h
    have := sum_map_set ht (pending s.registryNum) (some 0)
    simp only [pending] at this ⊢
    omega
  · rename_i k ht
    obtain ⟨hk, rfl⟩ := eq_of_guard h
    have := sum_map_set ht (pending s.registryNum) (some (k + 1))
    simp only [pending] at this ⊢
    omega
  · cases h

theorem rank_wakeUp (p : InitPoint) : rank (wakeUp p) = rank p := by
  cases p <;> rfl

theorem goTo_left (hw : s.workers[w]? = some p) (q : InitPoint) :
    (s.goTo w q).left + rank p = s.left + rank q := by
  have hset := sum_map_set hw rank q
  have hlength : (s.workers.set w q).length = s.workers.length := List.length_set
  simp only [left, goTo, hlength]
  omega

theorem goTo_left_lt {q : InitPoint} (hw : s.workers[w]? = some p) (hpq : rank q < rank p) :
    (s.goTo w q).left + 1 ≤ s.left := by
  have := goTo_left hw q
  omega

theorem construct_left (hstep : s.construct = some s') : s'.left + 1 ≤ s.left := by
  unfold construct at hstep
  split at hstep
  · rename_i hc
    split at hstep
    · rename_i table htable
      obtain rfl := Option.some.inj hstep
      have := addThread_left htable
      simp only [left]
      omega
    · obtain rfl := Option.some.inj hstep
      simp only [left, hc, creatorRank]
      omega
  · rename_i hc
    rcases eq_of_branch hstep with ⟨hfew, rfl⟩ | ⟨hfew, rfl⟩
    · simp only [left, List.length_append, List.length_singleton, List.map_append, List.map_cons,
        List.map_nil, List.sum_append, List.sum_singleton, rank]
      omega
    · simp only [left, hc, creatorRank]
      omega
  · cases hstep

theorem initInThread_left (hstep : s.initInThread w = some s') : s'.left + 1 ≤ s.left := by
  unfold initInThread at hstep
  split at hstep
  · rename_i hw
    obtain ⟨-, rfl⟩ := eq_of_guard hstep
    exact goTo_left_lt (s := { s with launchMutex := some w }) hw (by decide)
  · rename_i hw
    split at hstep
    · rename_i table htable
      obtain rfl := Option.some.inj hstep
      have := addThread_left htable
      simp only [left]
      omega
    · obtain rfl := Option.some.inj hstep
      exact goTo_left_lt hw (by decide)
  · rename_i hw
    have hcount := fun q => goTo_left_lt (q := q)
      (s := { s with initWorkerNum := s.initWorkerNum + 1, launchMutex := none }) hw
    rcases eq_of_branch hstep with ⟨-, rfl⟩ | ⟨-, rfl⟩
    · exact hcount .notifying (by decide)
    · exact hcount .waiting (by decide)
  · rename_i hw
    obtain rfl := Option.some.inj hstep
    have hwake : ({ s with workers := s.workers.map wakeUp } : Launch).left = s.left := by
      have hrank : rank ∘ wakeUp = rank := funext rank_wakeUp
      simp only [left, List.map_map, hrank, List.length_map]
    rw [← hwake]
    refine goTo_left_lt (p := .notifying) (s := { s with workers := s.workers.map wakeUp }) ?_ (by decide)
    rw [List.getElem?_map, hw]
    rfl
  · rename_i hw
    obtain ⟨-, rfl⟩ := eq_of_guard hstep
    exact goTo_left_lt (s := { s with launchMutex := some w }) hw (by decide)
  · rename_i hw
    obtain rfl := Option.some.inj hstep
    exact goTo_left_lt (s := { s with launchMutex := none }) hw (by decide)
  · cases hstep

theorem moveCreator_left {c d : CreatorPoint} (hstep : s.moveCreator c d = some s')
    (hcd : creatorRank d = creatorRank c) : s'.left = s.left := by
  obtain ⟨rfl, rfl⟩ := eq_of_guard hstep
  simp only [left, hcd]

theorem moveWorker_left {q : InitPoint} (hstep : s.moveWorker w p q = some s')
    (hpq : rank q = rank p) : s'.left = s.left := by
  obtain ⟨hw, rfl⟩ := eq_of_guard hstep
  have := goTo_left hw q
  omega

theorem step_left (hstep : s.step a = some s') :
    s'.left + (if launches a then 1 else 0) ≤ s.left := by
  cases a with
  | construct => exact construct_left hstep
  | init w => exact initInThread_left hstep
  | blockOn | creatorLookup | creatorLeave | blockOnReturn =>
    exact (moveCreator_left hstep rfl).le
  | spurious w | lookup w | leave w | stop w => exact (moveWorker_left hstep rfl).le

/-! ## Nobody is left asleep -/

/-- The worker has `worker_launch_mutex_`. -/
def holding : InitPoint → Bool
  | .adding | .counting | .awake => true
  | _ => false

structure Orderly (s : Launch) : Prop where
  mutex : Guards s.launchMutex fun w => s.workers[w]?.any holding = true
  /-- the last worker to count itself is about to wake those that wait -/
  waiting : .waiting ∈ s.workers → s.initWorkerNum < s.workerNum ∨ .notifying ∈ s.workers
  started : s.creator ≠ .adding → s.creator ≠ .starting → s.workers.length = s.workerNum

theorem orderly_new (n m : ℕ) : Orderly (new n m) := by
  refine ⟨fun w => ?_, nofun, fun h => absurd rfl h⟩
  simp [new]

/-- A worker that is not about to notify the others goes from one point to the next. -/
theorem Orderly.of_worker {q : InitPoint} {m : Option ℕ} {k : ℕ} (hs : Orderly s)
    (hw : s.workers[w]? = some p)
    (hmutex : Guards m fun j => (s.workers.set w q)[j]?.any holding = true) (hp : p ≠ .notifying)
    (hwait : q = .waiting ∨ s.initWorkerNum < s.workerNum → k < s.workerNum ∨ q = .notifying) :
    Orderly { s with launchMutex := m, initWorkerNum := k, workers := s.workers.set w q } where
  mutex := hmutex
  waiting := by
    have hnotify : ∀ h : k < s.workerNum ∨ q = .notifying,
        k < s.workerNum ∨ .notifying ∈ s.workers.set w q := by
      rintro (hk | rfl)
      · exact Or.inl hk
      · exact Or.inr (List.mem_of_getElem? (get_set_self hw _))
    intro hmem
    rcases List.mem_or_eq_of_mem_set hmem with hmem | hq
    · rcases hs.waiting hmem with hlt | hmem
      · exact hnotify (hwait (Or.inr hlt))
      · obtain ⟨x, hx, rfl⟩ := exists_mem_set (b := q) (P := (· = .notifying)) hw
          (fun h => absurd h hp) ⟨_, hmem, rfl⟩
        exact Or.inr hx
    · exact hnotify (hwait (Or.inl hq.symm))
  started := fun hc hc' => List.length_set.trans (hs.started hc hc')

theorem Orderly.moveWorker {q : InitPoint} (hs : Orderly s) (hstep : s.moveWorker w p q = some s')
    (hhold : holding q = holding p) (hp : p ≠ .notifying) (hq : q ≠ .waiting) : Orderly s' := by
  obtain ⟨hw, rfl⟩ := eq_of_guard hstep
  refine hs.of_worker hw (hs.mutex.set_keep hw hhold) hp ?_
  rintro (h | h)
  · exact absurd h hq
  · exact Or.inl h

theorem holding_wakeUp (p : InitPoint) : holding (wakeUp p) = holding p := by
  cases p <;> rfl

theorem wakeUp_ne_waiting (p : InitPoint) : wakeUp p ≠ .waiting := by
  cases p <;> nofun

/-- After `notify_all` nobody waits any more. -/
theorem Orderly.notify (hs : Orderly s) (hw : s.workers[w]? = some .notifying) :
    Orderly { s with workers := (s.workers.map wakeUp).set w .running } where
  mutex := by
    have hmap : Guards s.launchMutex fun j => (s.workers.map wakeUp)[j]?.any holding = true := by
      apply hs.mutex.keep
      intro j
      rw [List.getElem?_map, Option.any_map]
      simp only [holding_wakeUp]
    have hw' : (s.workers.map wakeUp)[w]? = some .notifying := by
      rw [List.getElem?_map, hw]
      rfl
    exact hmap.set_keep hw' rfl
  waiting := by
    intro hmem
    rcases List.mem_or_eq_of_mem_set hmem with hmem | heq
    · obtain ⟨p, -, hp⟩ := List.mem_map.mp hmem
      exact absurd hp (wakeUp_ne_waiting p)
    · cases heq
  started := by
    intro hc hc'
    simp only [List.length_set, List.length_map]
    exact hs.started hc hc'

theorem Orderly.initInThread (hs : Orderly s) (hstaged : Staged s)
    (hstep : s.initInThread w = some s') : Orderly s' := by
  unfold Launch.initInThread at hstep
  split at hstep
  · rename_i hw
    obtain ⟨hfree, rfl⟩ := eq_of_guard hstep
    exact hs.of_worker hw (hs.mutex.set_acquire hw hfree rfl) nofun (by simp)
  · rename_i hw
    split at hstep
    · obtain rfl := Option.some.inj hstep
      exact ⟨hs.mutex, hs.waiting, hs.started⟩
    · obtain rfl := Option.some.inj hstep
      exact hs.of_worker hw (hs.mutex.set_keep hw rfl) nofun (by simp)
  · rename_i hw
    -- a worker that is about to count itself is not counted yet
    have hlt : s.initWorkerNum + 1 ≤ s.workerNum := by
      have := countP_set hw InitPoint.counted .waiting
      have := List.countP_le_length (p := InitPoint.counted) (l := s.workers.set w .waiting)
      have := hstaged.counted
      have := hstaged.few
      simp [InitPoint.counted] at *
      omega
    have hmutex := fun q hq => hs.mutex.set_release (b := q) hw rfl hq
    rcases eq_of_branch hstep with ⟨-, rfl⟩ | ⟨hmore, rfl⟩
    · exact hs.of_worker hw (hmutex _ rfl) nofun fun _ => Or.inr rfl
    · have hfew : s.initWorkerNum + 1 < s.workerNum := by omega
      exact hs.of_worker hw (hmutex _ rfl) nofun fun _ => Or.inl hfew
  · rename_i hw
    obtain rfl := Option.some.inj hstep
    exact hs.notify hw
  · rename_i hw
    obtain ⟨hfree, rfl⟩ := eq_of_guard hstep
    exact hs.of_worker hw (hs.mutex.set_acquire hw hfree rfl) nofun (by simp)
  · rename_i hw
    obtain rfl := Option.some.inj hstep
    exact hs.of_worker hw (hs.mutex.set_release hw rfl rfl) nofun (by simp)
  · cases hstep

theorem Orderly.construct (hs : Orderly s) (hstaged : Staged s) (hstep : s.construct = some s') :
    Orderly s' := by
  unfold Launch.construct at hstep
  split at hstep
  · split at hstep
    · obtain rfl := Option.some.inj hstep
      exact ⟨hs.mutex, hs.waiting, hs.started⟩
    · obtain rfl := Option.some.inj hstep
      exact ⟨hs.mutex, hs.waiting, fun _ h => absurd rfl h⟩
  · rename_i hc
    rcases eq_of_branch hstep with ⟨hfew, rfl⟩ | ⟨hfew, rfl⟩
    · refine ⟨hs.mutex.keep fun j => ?_, ?_, fun _ h => absurd hc h⟩
      · show (s.workers ++ [InitPoint.lock])[j]?.any holding = true ↔ _
        rw [get_concat]
        split
        · rename_i hj
          rw [hj, List.getElem?_eq_none (Nat.le_refl _)]
          rfl
        · rfl
      · simpa using hs.waiting
    · refine ⟨hs.mutex, hs.waiting, fun _ _ => ?_⟩
      have := hstaged.few
      show s.workers.length = s.workerNum
      omega
  · cases hstep

theorem Orderly.moveCreator {c d : CreatorPoint} (hs : Orderly s) (hstep : s.moveCreator c d = some s')
    (hc : c ≠ .adding) (hc' : c ≠ .starting) : Orderly s' := by
  obtain ⟨rfl, rfl⟩ := eq_of_guard hstep
  exact ⟨hs.mutex, hs.waiting, fun _ _ => hs.started hc hc'⟩

theorem step_orderly (hstaged : Staged s) (hs : Orderly s) (hstep : s.step a = some s') :
    Orderly s' := by
  cases a with
  | construct => exact hs.construct hstaged hstep
  | init w => exact hs.initInThread hstaged hstep
  | blockOn | creatorLookup | creatorLeave | blockOnReturn => exact hs.moveCreator hstep nofun nofun
  | spurious w | lookup w | leave w | stop w => exact hs.moveWorker hstep rfl nofun nofun

/-! ## The launch -/

/-- A worker that cannot go on is past the launch, waits, or needs the mutex. -/
theorem initInThread_blocked (hstep : s.initInThread w = none) (hw : s.workers[w]? = some p) :
    atWork p = true ∨ p = .waiting ∨ holding p = false ∧ s.launchMutex ≠ none := by
  unfold initInThread at hstep
  rw [hw] at hstep
  cases p with
  | waiting => exact Or.inr (Or.inl rfl)
  | running | lookup | stopped => exact Or.inl rfl
  | lock | woken =>
    refine Or.inr (Or.inr ⟨rfl, fun hfree => ?_⟩)
    simp [hfree] at hstep
  | adding =>
    simp only at hstep
    split at hstep <;> cases hstep
  | counting =>
    simp only at hstep
    split at hstep <;> cases hstep
  | notifying | awake => cases hstep

theorem construct_blocked (hstep : s.construct = none) :
    s.creator ≠ .adding ∧ s.creator ≠ .starting := by
  unfold construct at hstep
  constructor
  · intro hc
    rw [hc] at hstep
    simp only at hstep
    split at hstep <;> cases hstep
  · intro hc
    rw [hc] at hstep
    simp only at hstep
    split at hstep <;> cases hstep

theorem Orderly.launched (hs : Orderly s) (hstaged : Staged s)
    (hstuck : ∀ a, launches a = true → s.step a = none) : s.Launched := by
  obtain ⟨hc, hc'⟩ := construct_blocked (hstuck .construct rfl)
  have hlength := hs.started hc hc'
  have hinit : ∀ w, s.initInThread w = none := fun w => hstuck (.init w) rfl
  -- the owner of the mutex could go on
  have hfree : s.launchMutex = none := by
    cases howner : s.launchMutex with
    | none => rfl
    | some w =>
      obtain ⟨p, hw, hp⟩ := (Option.any_eq_true _ _).mp ((hs.mutex w).mpr howner)
      rcases initInThread_blocked (hinit w) hw with h | rfl | ⟨h, -⟩
      · cases p <;> cases h <;> cases hp
      · cases hp
      · rw [hp] at h
        cases h
  have hpoint : ∀ p ∈ s.workers, atWork p = true ∨ p = .waiting := by
    intro p hp
    obtain ⟨w, hw⟩ := List.mem_iff_getElem?.mp hp
    rcases initInThread_blocked (hinit w) hw with h | h | ⟨-, h⟩
    · exact Or.inl h
    · exact Or.inr h
    · exact absurd hfree h
  have hcounted : s.initWorkerNum = s.workerNum := by
    rw [hstaged.counted, ← hlength, List.countP_eq_length]
    intro p hp
    rcases hpoint p hp with h | rfl
    · cases p <;> cases h <;> rfl
    · rfl
  refine ⟨hc, hc', hlength, fun p hp => (hpoint p hp).resolve_right ?_⟩
  rintro rfl
  rcases hs.waiting hp with hlt | hnotify
  · omega
  · rcases hpoint _ hnotify with h | h <;> cases h

theorem left_new (n m : ℕ) : (new n m).left = (n + 1) * (m + 1) + 2 + 6 * n := by
  simp [left, new, pending, creatorRank]

/-- In every run from `new workerNum registryNum`, under any schedule and with any number of spurious
wake-ups, the constructor and the workers take at most the stated number of launch steps, and as long
as the launch is not over one of them can take a step: the launch cannot end in a deadlock. -/
theorem launch_completes (workerNum registryNum : ℕ) (as : List LaunchAction) (s : Launch)
    (hrun : run step (new workerNum registryNum) as = some s) :
    as.countP launches ≤ (workerNum + 1) * (registryNum + 1) + 2 + 6 * workerNum ∧
      (¬ s.Launched → ∃ a, launches a = true ∧ (s.step a).isSome = true) := by
  constructor
  · have hany : Along step (fun _ _ => True) (new workerNum registryNum) as :=
      along_of_actions fun _ _ => trivial
    have := countP_add_le_of_measure (I := fun _ => True) (q := launches) left
      (fun _ _ _ _ _ _ => trivial) (fun _ _ _ _ _ hstep => step_left hstep) trivial hany hrun
    rw [left_new] at this
    omega
  · have hinv : Staged s ∧ Orderly s :=
      run_invariant (I := fun s => Staged s ∧ Orderly s)
        (fun _ _ _ h hstep => ⟨step_staged h.1 hstep, step_orderly h.1 h.2 hstep⟩)
        ⟨staged_new _ _, orderly_new _ _⟩ hrun
    intro hnot
    by_contra hstuck
    refine hnot (hinv.2.launched hinv.1 fun a ha => ?_)
    by_contra hsome
    exact hstuck ⟨a, ha, Option.isSome_iff_ne_none.mpr hsome⟩

/-- Two workers, of which one has woken up by itself and waits for the mutex of the other. -/
theorem launch_completes_two_workers :
    ∃ s, run step (new 2 1)
      [.construct, .construct, .construct, .construct, .construct, .init 0, .init 0, .init 0, .init 0,
       .init 0, .init 1, .spurious 0] = some s ∧ ¬ s.Launched ∧ s.step (.init 0) = none ∧
      ∃ a, launches a = true ∧ (s.step a).isSome = true := by
  obtain ⟨s, hrun, hnot, hblocked⟩ : ∃ s, run step (new 2 1)
      [.construct, .construct, .construct, .construct, .construct, .init 0, .init 0, .init 0, .init 0,
       .init 0, .init 1, .spurious 0] = some s ∧ ¬ s.Launched ∧ s.step (.init 0) = none :=
    exists_run (by decide)
  exact ⟨s, hrun, hnot, hblocked, (launch_completes 2 1 _ s hrun).2 hnot⟩

end Xyco.Runtime.Launch
