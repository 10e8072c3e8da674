import Xyco.Runtime.Proofs.LifetimeStepProofs

/-!
# Proofs: frames and futures in every run

When a run follows a pointer that dangles, and when it leaves a frame behind.
-/

namespace Xyco.Runtime.Lifetimes

open Machine

variable {s t : Lifetimes} {p q c g h : ℕ} {f : FutureObject} {a : LifetimeAction}

/-! ## Pointers that dangle -/

/-- Another worker runs the spawned coroutine to its end before `spawn_impl` returns. -/
example : (run step init [.call true, .spawnImpl 0, .start 1, .await 1 1 false, .finish 0 false,
    .finish 1 false, .drop 2]).map fault = some true := by decide

/-- The spawned function throws before it has suspended. -/
example : (run step init [.call true, .spawnImpl 0, .drop 2, .start 1, .await 1 1 false,
    .finish 0 true, .finish 1 true]).map fault = some true := by decide

/-! ## Frames that are left behind -/

theorem held_iff : s.Held c ↔ s.pointers.Held c := by
  have hactive : (∃ x, s.status c = some x ∧ x ≠ .created ∧ x ≠ .done) ↔ s.pointers.Active c := by
    rw [Pointers.Active, pointers_status, Option.any_eq_true]
    refine exists_congr fun x => and_congr_right fun _ => ?_
    cases x <;> simp [Status.active]
  have hself : (∃ p f, s.futures.read p = some f ∧ f.self = some c) ↔
      ∃ p, s.pointers.self p = some c :=
    exists_congr fun p => Option.bind_eq_some_iff.symm
  rw [Held, Pointers.Held, hactive, hself]
  rfl

theorem noneLeaked_iff : s.NoneLeaked ↔ s.pointers.NoneLeaked := by
  refine forall_congr' fun c => ?_
  have hlive : s.frames.read c ≠ none ↔ s.pointers.status c ≠ none := by
    rw [pointers_status, status, ne_eq, ne_eq, Option.map_eq_none_iff]
  rw [hlive, held_iff]

theorem keepsFrames_iff (s : Lifetimes) (a : LifetimeAction) :
    s.keepsFrames a = true ↔ s.pointers.Keeps a := by
  cases a with
  | assign p q =>
    cases hq : s.futures.read q <;> simp [keepsFrames, Pointers.Keeps, pointers, Heap.view, hq]
  | drop p =>
    cases hp : s.futures.read p with
    | none => simp [keepsFrames, Pointers.Keeps, pointers, Heap.view, hp]
    | some f =>
      rcases f with ⟨void, wrapper, self, waiting, waited⟩
      cases void <;> cases wrapper <;> cases self <;> cases waiting <;>
        simp [keepsFrames, Pointers.Keeps, pointers, Heap.view, hp]
  | finish c threw =>
    cases hc : s.frames.read c with
    | none => cases threw <;> simp [keepsFrames, Pointers.Keeps, pointers, Heap.view, hc]
    | some frame =>
      cases threw <;> cases hp : frame.future <;>
        simp [keepsFrames, Pointers.Keeps, pointers, Heap.view, hc, hp]
  | _ => simp [keepsFrames, Pointers.Keeps]

/-- In every run that leaves a `Future` alone while it is being awaited, no frame is left that nobody
will resume or destroy, exactly if no `Future` with a coroutine is assigned to, no `Future<void>` is
destroyed that has a coroutine and was not awaited, and no task throws after its `future_wrapper` is
gone. -/
theorem no_frame_leaked_iff (actions : List LifetimeAction)
    (hawaited : Along step (fun s a => s.leavesAwaited a = true) init actions) :
    Always step NoneLeaked init actions ↔
      Along step (fun s a => s.keepsFrames a = true) init actions := by
  refine always_iff_along_of_along (I := fun s : Lifetimes => s.pointers.Sound ∧ s.NoneLeaked)
    (fun s hs => hs.2) ?_ ?_ ⟨sound_init, by simp [NoneLeaked, init]⟩ hawaited
  · rintro s a t ⟨hs, hn⟩ ⟨hkeep, hfree⟩ hstep
    refine ⟨step_sound hs hfree hstep, noneLeaked_iff.mpr ?_⟩
    exact (step_pointers hs hfree hstep).noneLeaked s.wellFormed_pointers hs (noneLeaked_iff.mp hn)
      ((keepsFrames_iff s a).mp hkeep)
  · rintro s a t ⟨hs, -⟩ hfree hkeep hstep hn
    exact (step_pointers hs hfree hstep).leaked s.wellFormed_pointers hs
      (fun hk => hkeep ((keepsFrames_iff s a).mpr hk)) (noneLeaked_iff.mp hn)

/-- A `Future` that is moved twice and then awaited. -/
theorem no_frame_leaked_iff_moved :
    Always step NoneLeaked init
      [.call true, .move 0, .spawnImpl 1, .drop 3, .start 1, .await 1 2 false, .finish 0 false,
        .finish 1 false, .drop 2] :=
  (no_frame_leaked_iff _ (by decide)).mpr (by decide)

end Xyco.Runtime.Lifetimes
