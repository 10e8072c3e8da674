import Xyco.Runtime.Launch

/-!
# Proofs: the launch of a runtime

A worker is counted after it has added itself, so the worker that makes the count equal to the number
of workers finds the table complete, and a complete table is not written any more. The other workers
go on after that, unless one wakes up for no reason; the creating thread does not wait for anybody.
-/

namespace Xyco.Runtime

namespace InitPoint

/-- `add_thread` is over. -/
def added : InitPoint → Bool
  | .lock | .adding => false
  | _ => true

/-- `++init_worker_num_` is over. -/
def counted : InitPoint → Bool
  | .lock | .adding | .counting => false
  | _ => true

/-- The worker does not wait for others any more. -/
def passed : InitPoint → Bool
  | .lock | .adding | .counting | .waiting => false
  | _ => true

theorem added_of_counted {p : InitPoint} (hp : p.counted = true) : p.added = true := by
  cases p <;> first | rfl | cases hp

end InitPoint

/-- The creating thread is in the run loop. -/
def CreatorPoint.inLoop : CreatorPoint → Bool
  | .running | .lookup => true
  | _ => false

namespace Launch

open Machine Table InitPoint

variable {s s' : Launch} {a : LaunchAction} {w t : ℕ} {p q : InitPoint} {c d : CreatorPoint}
variable {table : List (Option ℕ)}

/-! ## What one step does -/

inductive Turn (s : Launch) (a : LaunchAction) : Launch → Prop where
  | write {t : ℕ} {table : List (Option ℕ)} (ht : s.addThread t = some table) :
      Turn s a { s with localRegistries := table }
  | creator {d : CreatorPoint} (hd : d ≠ .adding)
      (hfirst : s.creator = .adding → s.addThread 0 = none)
      (hloop : d.inLoop = true → s.creator.inLoop = true ∨ a = .blockOn) :
      Turn s a { s with creator := d }
  | start (hc : s.creator = .starting) (hfew : s.workers.length < s.workerNum) :
      Turn s a { s with workers := s.workers ++ [.lock] }
  | worker {w k : ℕ} {p q : InitPoint} {m : Option ℕ} (hw : s.workers[w]? = some p)
      (hcount : k + (if p.counted then 1 else 0) = s.initWorkerNum + if q.counted then 1 else 0)
      (hadded : q.added = true → p.added = true ∨ s.addThread (w + 1) = none)
      (hpassed : q.passed = true → p.passed = true ∨ k = s.workerNum ∨ a = .spurious w) :
      Turn s a { s with launchMutex := m, initWorkerNum := k, workers := s.workers.set w q }
  | notify {w : ℕ} (hw : s.workers[w]? = some .notifying) :
      Turn s a { s with workers := (s.workers.map wakeUp).set w .running }

theorem construct_cases (hstep : s.construct = some s') : Turn s a s' := by
  unfold construct at hstep
  split at hstep
  · split at hstep
    · rename_i table htable
      obtain rfl := Option.some.inj hstep
      exact .write htable
    · rename_i hdone
      obtain rfl := Option.some.inj hstep
      exact .creator nofun (fun _ => hdone) nofun
  · rename_i hc
    split at hstep
    · rename_i hfew
      obtain rfl := Option.some.inj hstep
      exact .start hc hfew
    · obtain rfl := Option.some.inj hstep
      exact .creator nofun (fun hc' => by rw [hc] at hc'; cases hc') nofun
  · cases hstep

theorem moveCreator_cases (hstep : s.moveCreator c d = some s') (hc : c ≠ .adding) (hd : d ≠ .adding)
    (hloop : d.inLoop = true → c.inLoop = true ∨ a = .blockOn) : Turn s a s' := by
  obtain ⟨rfl, rfl⟩ := eq_of_guard hstep
  exact .creator hd (fun h => absurd h hc) hloop

theorem moveWorker_cases (hstep : s.moveWorker w p q = some s') (hcounted : q.counted = p.counted)
    (hadded : p.added = true) (hpassed : q.passed = true → p.passed = true ∨ a = .spurious w) :
    Turn s a s' := by
  obtain ⟨hw, rfl⟩ := eq_of_guard hstep
  refine .worker hw (by rw [hcounted]) (fun _ => Or.inl hadded) fun hq => ?_
  rcases hpassed hq with hp | ha
  · exact Or.inl hp
  · exact Or.inr (Or.inr ha)

theorem initInThread_cases (hstep : s.initInThread w = some s') : Turn s a s' := by
  unfold initInThread at hstep
  split at hstep
  · rename_i hw
    obtain ⟨-, rfl⟩ := eq_of_guard hstep
    exact .worker hw rfl nofun nofun
  · rename_i hw
    split at hstep
    · rename_i table htable
      obtain rfl := Option.some.inj hstep
      exact .write htable
    · rename_i hdone
      obtain rfl := Option.some.inj hstep
      exact .worker hw rfl (fun _ => Or.inr hdone) nofun
  · rename_i hw
    split at hstep
    · rename_i hlast
      obtain rfl := Option.some.inj hstep
      exact .worker hw rfl (fun _ => Or.inl rfl) fun _ => Or.inr (Or.inl hlast)
    · obtain rfl := Option.some.inj hstep
      exact .worker hw rfl (fun _ => Or.inl rfl) nofun
  · rename_i hw
    obtain rfl := Option.some.inj hstep
    exact .notify hw
  · rename_i hw
    obtain ⟨-, rfl⟩ := eq_of_guard hstep
    exact .worker hw rfl (fun _ => Or.inl rfl) fun _ => Or.inl rfl
  · rename_i hw
    obtain rfl := Option.some.inj hstep
    exact .worker hw rfl (fun _ => Or.inl rfl) fun _ => Or.inl rfl
  · cases hstep

theorem step_cases (hstep : s.step a = some s') : Turn s a s' := by
  cases a with
  | construct => exact construct_cases hstep
  | blockOn => exact moveCreator_cases hstep nofun nofun fun _ => Or.inr rfl
  | creatorLookup => exact moveCreator_cases hstep nofun nofun fun _ => Or.inl rfl
  | creatorLeave => exact moveCreator_cases hstep nofun nofun fun _ => Or.inl rfl
  | blockOnReturn => exact moveCreator_cases hstep nofun nofun nofun
  | init w => exact initInThread_cases hstep
  | spurious w => exact moveWorker_cases hstep rfl rfl fun _ => Or.inr rfl
  | lookup w => exact moveWorker_cases hstep rfl rfl fun _ => Or.inl rfl
  | leave w => exact moveWorker_cases hstep rfl rfl fun _ => Or.inl rfl
  | stop w => exact moveWorker_cases hstep rfl rfl fun _ => Or.inl rfl

/-! ## The table and the count -/

structure Staged (s : Launch) : Prop where
  size : s.localRegistries.length = s.workerNum + 1
  bounded : ∀ (t : ℕ) e, s.localRegistries[t]? = some e → ∀ k, e = some k → k ≤ s.registryNum
  few : s.workers.length ≤ s.workerNum
  first : s.creator ≠ .adding → s.localRegistries[0]? = some (some s.registryNum)
  alone : s.creator = .adding → s.workers = []
  added : ∀ (w : ℕ) p, s.workers[w]? = some p → p.added = true →
    s.localRegistries[w + 1]? = some (some s.registryNum)
  counted : s.initWorkerNum = s.workers.countP InitPoint.counted

theorem staged_new (n m : ℕ) : Staged (new n m) where
  size := List.length_replicate
  bounded := by
    intro t e he k hk
    cases (List.eq_of_mem_replicate (List.mem_of_getElem? he)).symm.trans hk
  few := Nat.zero_le n
  first := fun h => absurd rfl h
  alone := fun _ => rfl
  added := nofun
  counted := rfl

theorem addThread_cases (h : s.addThread t = some table) :
    ∃ e, s.localRegistries[t]? = some e ∧ e ≠ some s.registryNum ∧
      ∃ k ≤ s.registryNum, table = s.localRegistries.set t (some k) := by
  unfold addThread at h
  split at h
  · rename_i ht
    exact ⟨none, ht, nofun, 0, Nat.zero_le _, (Option.some.inj h).symm⟩
  · rename_i k ht
    obtain ⟨hk, rfl⟩ := eq_of_guard h
    refine ⟨some k, ht, ?_, k + 1, hk, rfl⟩
    intro heq
    have := Option.some.inj heq
    omega
  · cases h

/-- The last write of `add_thread` leaves the entry of the thread complete. -/
theorem Staged.done (hs : Staged s) (ht : t ≤ s.workerNum) (h : s.addThread t = none) :
    s.localRegistries[t]? = some (some s.registryNum) := by
  unfold addThread at h
  split at h
  · cases h
  · rename_i k hk
    have hle := hs.bounded t _ hk k rfl
    split at h
    · cases h
    · obtain rfl : k = s.registryNum := by omega
      exact hk
  · rename_i hnone
    have := List.getElem?_eq_none_iff.mp hnone
    have := hs.size
    omega

/-- A complete entry is not written any more. -/
theorem entry_kept (h : s.addThread t = some table) {u : ℕ}
    (hu : s.localRegistries[u]? = some (some s.registryNum)) :
    table[u]? = some (some s.registryNum) := by
  obtain ⟨e, ht, hne, k, -, rfl⟩ := addThread_cases h
  rw [get_set ht]
  split
  · rename_i hut
    rw [hut, ht] at hu
    exact absurd (Option.some.inj hu) hne
  · exact hu

theorem Staged.write (hs : Staged s) (h : s.addThread t = some table) :
    Staged { s with localRegistries := table } where
  size := by
    obtain ⟨e, -, -, k, -, rfl⟩ := addThread_cases h
    exact List.length_set.trans hs.size
  bounded := by
    obtain ⟨e, -, -, k, hk, rfl⟩ := addThread_cases h
    exact forall_set hs.bounded fun j hj => Option.some.inj hj ▸ hk
  few := hs.few
  first := fun hc => entry_kept h (hs.first hc)
  alone := hs.alone
  added := fun w p hp hadded => entry_kept h (hs.added w p hp hadded)
  counted := hs.counted

/-- A worker goes from one point to the next. -/
theorem Staged.of_worker (hs : Staged s) (hw : s.workers[w]? = some p) {m : Option ℕ} {k : ℕ}
    (hcount : k + (if p.counted then 1 else 0) = s.initWorkerNum + if q.counted then 1 else 0)
    (hadded : q.added = true → s.localRegistries[w + 1]? = some (some s.registryNum)) :
    Staged { s with launchMutex := m, initWorkerNum := k, workers := s.workers.set w q } where
  size := hs.size
  bounded := hs.bounded
  few := List.length_set.trans_le hs.few
  first := hs.first
  alone := by
    intro hc
    rw [hs.alone hc] at hw
    cases hw
  added := forall_set hs.added hadded
  counted := by
    have hset := countP_set hw InitPoint.counted q
    have := hs.counted
    show k = (s.workers.set w q).countP InitPoint.counted
    omega

theorem counted_wakeUp (p : InitPoint) : (wakeUp p).counted = p.counted := by
  cases p <;> rfl

theorem added_wakeUp (p : InitPoint) : (wakeUp p).added = p.added := by
  cases p <;> rfl

theorem Staged.notify (hs : Staged s) : Staged { s with workers := s.workers.map wakeUp } where
  size := hs.size
  bounded := hs.bounded
  few := by
    rw [List.length_map]
    exact hs.few
  first := hs.first
  alone := by
    intro hc
    show s.workers.map wakeUp = []
    rw [hs.alone hc]
    rfl
  added := by
    intro w p hp hadded
    have hp' : (s.workers.map wakeUp)[w]? = some p := hp
    rw [List.getElem?_map] at hp'
    obtain ⟨r, hr, rfl⟩ := Option.map_eq_some_iff.mp hp'
    rw [added_wakeUp] at hadded
    exact hs.added w r hr hadded
  counted := by
    show s.initWorkerNum = (s.workers.map wakeUp).countP InitPoint.counted
    rw [List.countP_map, hs.counted]
    congr 1
    funext p
    exact (counted_wakeUp p).symm

theorem worker_le (hs : Staged s) (hw : s.workers[w]? = some p) : w + 1 ≤ s.workerNum := by
  obtain ⟨hlt, -⟩ := List.getElem?_eq_some_iff.mp hw
  have := hs.few
  omega

theorem step_staged (hs : Staged s) (hstep : s.step a = some s') : Staged s' := by
  cases step_cases hstep with
  | write ht => exact hs.write ht
  | creator hd hfirst _ =>
    refine ⟨hs.size, hs.bounded, hs.few, fun _ => ?_, fun hc => absurd hc hd, hs.added, hs.counted⟩
    by_cases hc : s.creator = .adding
    · exact hs.done (Nat.zero_le _) (hfirst hc)
    · exact hs.first hc
  | start hc hfew =>
    refine ⟨hs.size, hs.bounded, ?_, hs.first, ?_, forall_concat hs.added nofun, ?_⟩
    · show (s.workers ++ [InitPoint.lock]).length ≤ s.workerNum
      rw [List.length_append]
      exact hfew
    · intro hadding
      cases hc.symm.trans hadding
    · show s.initWorkerNum = (s.workers ++ [InitPoint.lock]).countP InitPoint.counted
      rw [List.countP_append]
      exact hs.counted
  | worker hw hcount hadded _ =>
    refine hs.of_worker hw hcount fun hq => ?_
    rcases hadded hq with hp | hdone
    · exact hs.added _ _ hw hp
    · exact hs.done (worker_le hs hw) hdone
  | notify hw =>
    rename_i w
    have hw' : (s.workers.map wakeUp)[w]? = some .notifying := by
      rw [List.getElem?_map, hw]
      rfl
    exact hs.notify.of_worker hw' rfl fun _ => hs.added w _ hw rfl

/-- All workers are counted, so all threads have added themselves. -/
theorem Staged.complete (hs : Staged s) (hw : s.workers[w]? = some p)
    (hall : s.initWorkerNum = s.workerNum) : s.Complete := by
  have hlength : s.workers.countP InitPoint.counted = s.workers.length := by
    have := hs.counted
    have := hs.few
    have := List.countP_le_length (p := InitPoint.counted) (l := s.workers)
    omega
  have hcounted := List.countP_eq_length.mp hlength
  intro t ht
  cases t with
  | zero =>
    apply hs.first
    intro hc
    rw [hs.alone hc] at hw
    cases hw
  | succ v =>
    have hv : v < s.workers.length := by
      have := hs.counted
      omega
    have hget := List.getElem?_eq_getElem hv
    exact hs.added v _ hget (added_of_counted (hcounted _ (List.getElem_mem hv)))

/-! ## The barrier -/

/-- Whoever is past the barrier has a complete table before them. -/
structure Sealed (s : Launch) : Prop where
  staged : Staged s
  passed : ∀ p ∈ s.workers, p.passed = true → s.Complete
  loop : s.creator.inLoop = true → s.Complete

theorem step_sealed (hs : Sealed s) (hpatient : s.Patient a) (hstep : s.step a = some s') :
    Sealed s' := by
  have hstaged := step_staged hs.staged hstep
  cases step_cases hstep with
  | write ht =>
    have hkeep : s.Complete → Complete { s with localRegistries := _ } :=
      fun hc t htn => entry_kept ht (hc t htn)
    exact ⟨hstaged, fun p hp hpassed => hkeep (hs.passed p hp hpassed), fun hc => hkeep (hs.loop hc)⟩
  | creator _ _ hloop =>
    refine ⟨hstaged, hs.passed, fun hd => ?_⟩
    rcases hloop hd with hc | rfl
    · exact hs.loop hc
    · exact hpatient
  | start _ _ => exact ⟨hstaged, forall_mem_concat hs.passed nofun, hs.loop⟩
  | worker hw _ _ hpassed =>
    refine ⟨hstaged, forall_mem_set hs.passed fun hq => ?_, hs.loop⟩
    rcases hpassed hq with hp | hlast | rfl
    · exact hs.passed _ (List.mem_of_getElem? hw) hp
    · exact hstaged.complete (get_set_self hw _) hlast
    · exact hpatient
  | notify hw =>
    have hcomplete : s.Complete := hs.passed _ (List.mem_of_getElem? hw) rfl
    exact ⟨hstaged, fun _ _ _ => hcomplete, fun _ => hcomplete⟩

theorem Sealed.safe (hs : Sealed s) : s.Safe := by
  rintro (hc | hw)
  · exact hs.loop (by rw [hc]; rfl)
  · exact hs.passed _ hw rfl

/-- For every number of workers and registries: if no worker wakes up by itself and `block_on` is not
called before all threads have completed `add_thread`, nobody reads the table before that. -/
theorem lookup_after_launch (workerNum registryNum : ℕ) (as : List LaunchAction) (s : Launch)
    (hrun : run step (new workerNum registryNum) as = some s)
    (hpatient : Along step Patient (new workerNum registryNum) as) : s.Safe := by
  have hinit : Sealed (new workerNum registryNum) := ⟨staged_new _ _, nofun, nofun⟩
  have hsealed : Sealed s :=
    run_invariant_along (fun _ _ _ hs hg hstep => step_sealed hs hg hstep) hinit hpatient hrun
  exact hsealed.safe

/-- Two workers: one waits for the other, both go on, and `block_on` is called then. -/
theorem lookup_after_launch_two_workers :
    ∃ as s, run step (new 2 1) as = some s ∧ Along step Patient (new 2 1) as ∧ s.LookedUp ∧
      s.Complete := by
  have hrun : ∃ as s, run step (new 2 1) as = some s ∧ Along step Patient (new 2 1) as ∧
      s.LookedUp := by
    refine ⟨[.construct, .construct, .construct, .construct, .construct, .init 1, .init 1, .init 1,
      .init 1, .init 1, .construct, .init 0, .init 0, .init 0, .init 0, .init 0, .blockOn,
      .creatorLookup, .init 0, .init 1, .init 1, .lookup 1], ?_⟩
    exact exists_run (by decide)
  obtain ⟨as, s, hrun, hpatient, hlooked⟩ := hrun
  exact ⟨as, s, hrun, hpatient, hlooked, lookup_after_launch 2 1 as s hrun hpatient hlooked⟩

/-- With one worker, `block_on` right after the constructor reads the table while the worker has the
mutex and is about to write its entry. With two, a worker that wakes up by itself does. -/
theorem lookup_during_launch :
    (∃ s, run step (new 1 1)
      [.construct, .construct, .construct, .construct, .construct, .init 0, .blockOn,
       .creatorLookup] = some s ∧ s.creator = .lookup ∧ s.workers = [.adding] ∧ ¬ s.Complete) ∧
    ∃ s, run step (new 2 1)
      [.construct, .construct, .construct, .construct, .construct, .init 0, .init 0, .init 0, .init 0,
       .init 0, .spurious 0, .init 0, .init 0, .lookup 0] = some s ∧
      s.workers = [.lookup, .lock] ∧ ¬ s.Complete :=
  ⟨exists_run (by decide), exists_run (by decide)⟩

end Launch

end Xyco.Runtime
