import Xyco.Runtime.Pointers

/-!
# Proofs: every step keeps the pointers sound
-/

namespace Xyco.Runtime.Pointers

attribute [local grind =] Status.active Active

variable {k : Pointers} {p q c g h : ℕ} {x : Status} {void wrapper : Bool}

theorem Sound.allocObject (hk : Sound k) (hw : WellFormed k) (void : Bool) :
    Sound (k.allocObject ⟨void, false, none, none, none⟩) := by
  obtain ⟨hno, -, hfresh, -⟩ := hw
  unfold Pointers.allocObject
  exact {
    hk with
    self := by have := hk.self; grind
    wrapper := by have := hk.wrapper; grind
    active := by have := hk.active; grind
    awaiting := by have := hk.awaiting; grind
    handles := by have := hk.handles; grind
    waited := by have := hk.waited; grind }

theorem Sound.call (hk : Sound k) (hw : WellFormed k) (hv : wrapper = true → void = true) :
    Sound (k.call void wrapper) := by
  obtain ⟨hno, hno', hfresh, hfresh'⟩ := hw
  unfold Pointers.call Pointers.allocObject Pointers.allocFrame
  exact {
    hk with
    self := by have := hk.self; grind
    wrapper := by have := hk.wrapper; grind
    active := by have := hk.active; grind
    awaiting := by have := hk.awaiting; grind
    handles := by have := hk.handles; grind
    nodup := by have := hk.handles; have := hk.nodup; grind
    waited := by have := hk.waited; grind }

/-! ## Moves -/

/-- A coroutine that has started is a task, or it is awaited. -/
theorem Sound.not_active (hk : Sound k) (hp : ∀ g, k.status g ≠ some (.awaiting p))
    (hself : k.self p = some c) (hw : k.wrapper p ≠ some true) : ¬ k.Active c := by
  intro hc
  rcases hk.self p c hself with ⟨hfuture, -⟩ | ⟨hw', -⟩
  · obtain ⟨-, hwrapper, hawaited⟩ := (hk.active c hc).2 p hfuture
    cases hwaiting : k.waiting p with
    | none => exact hw (hwrapper hwaiting)
    | some g => exact hp g (hawaited g hwaiting)
  · exact hw hw'

theorem Free.not_active (hp : k.Free p) (hk : Sound k) (hself : k.self p = some c) : ¬ k.Active c :=
  hk.not_active hp.unawaited hself (by simp [hp.named])

theorem Sound.transfer (hk : Sound k) (hw : WellFormed k) (hp : k.Free p) (hq : k.Free q)
    (hvoid : k.void p = k.void q) : Sound (k.transfer p q) := by
  have hpc := fun c => @hp.not_active _ _ c hk
  have hqc := fun c => @hq.not_active _ _ c hk
  have hno := hw.noFrame
  obtain ⟨hpw, hpa⟩ := hp
  obtain ⟨hqw, hqa⟩ := hq
  unfold Pointers.transfer
  exact {
    hk with
    self := by have := hk.self; grind
    wrapper := by have := hk.wrapper; grind
    active := by have := hk.self; have := hk.active; grind
    awaiting := by have := hk.awaiting; grind
    handles := by have := hk.self; have := hk.handles; grind
    waited := by have := hk.waited; grind }

theorem WellFormed.allocObject (hw : WellFormed k) (void : Bool) :
    WellFormed (k.allocObject ⟨void, false, none, none, none⟩) := by
  obtain ⟨hno, hno', hfresh, hfresh'⟩ := hw
  unfold Pointers.allocObject
  exact ⟨by grind, hno', by grind, hfresh'⟩

theorem WellFormed.transfer (hw : WellFormed k) (hp : k.Free p) (hq : k.Free q) :
    WellFormed (k.transfer p q) := by
  obtain ⟨hno, hno', hfresh, hfresh'⟩ := hw
  have hpw := hp.named
  have hqw := hq.named
  unfold Pointers.transfer
  exact ⟨by grind, by grind, hfresh, hfresh'⟩

/-- Where the new object of a move is, nobody awaits anything. -/
theorem Sound.free_nextObject (hk : Sound k) (hw : WellFormed k) (void : Bool) :
    (k.allocObject ⟨void, false, none, none, none⟩).Free k.nextObject := by
  constructor
  · simp [Pointers.allocObject]
  · intro g hg
    have hnamed := (hk.awaiting g _ hg).2.1
    rw [hw.freshObject _ (Nat.le_refl _)] at hnamed
    cases hnamed

theorem Free.allocObject (hp : k.Free p) (hw : WellFormed k) (void : Bool) :
    (k.allocObject ⟨void, false, none, none, none⟩).Free p := by
  have hfresh := hw.freshObject
  have hpw := hp.named
  exact ⟨by grind [Pointers.allocObject], hp.unawaited⟩

theorem WellFormed.moveConstruct (hw : WellFormed k) (hk : Sound k) (hp : k.Free p) (void : Bool) :
    WellFormed (k.moveConstruct p void) :=
  (hw.allocObject void).transfer (hp.allocObject hw void) (hk.free_nextObject hw void)

theorem Sound.moveConstruct (hk : Sound k) (hw : WellFormed k) (hp : k.Free p)
    (hvoid : k.void p = some void) : Sound (k.moveConstruct p void) := by
  refine (hk.allocObject hw void).transfer (hw.allocObject void) (hp.allocObject hw void)
    (hk.free_nextObject hw void) ?_
  have hne : p ≠ k.nextObject := by
    rintro rfl
    have := hp.named
    rw [hw.freshObject _ (Nat.le_refl _)] at this
    cases this
  simp [Pointers.allocObject, hne, hvoid]

/-! ## Coroutines -/

theorem Sound.start (hk : Sound k) (hc : c ∈ k.handles) :
    Sound { k.setStatus c .running with handles := k.handles.erase c } := by
  obtain ⟨hcreated, hvoid, hwrapper⟩ := hk.handles c hc
  have hmem : ∀ d, d ∈ k.handles.erase c ↔ d ≠ c ∧ d ∈ k.handles := fun d => hk.nodup.mem_erase_iff
  unfold Pointers.setStatus
  exact {
    hk with
    self := by have := hk.self; grind
    active := by have := hk.wrapper; have := hk.awaiting; have := hk.active; grind
    awaiting := by have := hk.awaiting; grind
    handles := by have := hk.handles; grind
    nodup := hk.nodup.erase c
    waited := by have := hk.waited; grind }

theorem Sound.setWaited (hk : Sound k) (h : ℕ) : Sound (k.setWaited h none) := by
  unfold Pointers.setWaited
  exact { hk with waited := by have := hk.waited; grind }

/-- `co_await` of an object with a `poll` of its own. -/
theorem Sound.setWaiting (hk : Sound k) (hp : k.Free p) (hself : k.self p = none) (g : ℕ) :
    Sound (k.setWaiting p g) := by
  obtain ⟨hpw, hpa⟩ := hp
  unfold Pointers.setWaiting
  exact {
    hk with
    self := by have := hk.self; grind
    wrapper := by have := hk.wrapper; grind
    active := by have := hk.active; grind
    awaiting := by have := hk.awaiting; grind }

theorem Sound.awaitPending (hk : Sound k) (hg : k.status g = some .running) (hp : k.Free p)
    (hself : k.self p = none) (hwaiting : k.waiting p = some g) :
    Sound (k.setStatus g (.awaiting p)) := by
  obtain ⟨hpw, hpa⟩ := hp
  unfold Pointers.setStatus
  exact {
    hk with
    self := by have := hk.self; grind
    active := by have := hk.active; have := hk.awaiting; grind
    awaiting := by have := hk.awaiting; grind
    handles := by have := hk.handles; grind
    waited := by have := hk.waited; grind }

theorem Sound.awaitCreated (hk : Sound k) (hg : k.status g = some .running) (hp : k.Free p)
    (hself : k.self p = some c) (hc : k.status c = some .created) :
    Sound ((((k.setWaiting p g).setWaited g (some c)).setStatus g (.awaiting p)).setStatus c
      .running) := by
  obtain ⟨hpw, hpa⟩ := hp
  have hgc := (hk.active g (by simp [Active, hg, Status.active])).2
  unfold Pointers.setStatus Pointers.setWaited Pointers.setWaiting
  exact {
    hk with
    self := by have := hk.self; grind
    wrapper := by have := hk.wrapper; grind
    active := by have := hk.self; have := hk.active; have := hk.awaiting; grind
    awaiting := by have := hk.awaiting; grind
    handles := by have := hk.self; have := hk.handles; grind
    waited := by
      intro q d hd
      simp only at hd ⊢
      split at hd
      · rename_i hq
        obtain rfl := Option.some.inj hd
        exact ⟨g, p, (hgc q hq.1).1, by grind, hself⟩
      · obtain ⟨g', q', hq', hg', hd'⟩ := hk.waited q d hd
        exact ⟨g', q', hq', by grind, hd'⟩ }

/-! ## The end of a coroutine -/

/-- The coroutine runs off its end. -/
theorem Sound.finishTask (hk : Sound k) (hw : WellFormed k) (hc : k.status c = some .running)
    (hwaiting : ∀ p, k.future c = some p → k.waiting p = none) : Sound (k.freeFrame c) := by
  have hfresh := hw.freshFrame
  have hca := (hk.active c (by simp [Active, hc, Status.active])).2
  unfold Pointers.freeFrame
  exact {
    hk with
    self := by have := hk.self; grind
    active := by have := hk.active; grind
    awaiting := by have := hk.self; have := hk.awaiting; grind
    handles := by have := hk.handles; grind
    waited := by have := hk.waited; grind }

theorem Sound.throwTask (hk : Sound k) (hc : k.status c = some .running)
    (hfuture : k.future c = none) : Sound (k.setStatus c .done) := by
  unfold Pointers.setStatus
  exact {
    hk with
    self := by have := hk.self; grind
    active := by have := hk.active; grind
    awaiting := by have := hk.self; have := hk.awaiting; grind
    handles := by have := hk.handles; grind
    waited := by have := hk.waited; grind }

theorem Sound.finishAwaited (hk : Sound k) (hw : WellFormed k) (hc : k.status c = some .running)
    (hfuture : k.future c = some p) (hwaiting : k.waiting p = some h) :
    Sound ((k.setStatus c .done).resume h) := by
  obtain ⟨hself, -, hawaited⟩ := (hk.active c (by simp [Active, hc, Status.active])).2 p hfuture
  have hh := hawaited h hwaiting
  unfold Pointers.resume Pointers.setWaited Pointers.setStatus
  exact {
    hk with
    self := by have := hk.self; grind
    active := by have := hk.active; grind
    awaiting := by have := hk.self; have := hk.awaiting; grind
    handles := by have := hk.handles; grind
    waited := by
      intro q d hd
      simp only at hd ⊢
      split at hd
      · cases hd
      · rename_i hq
        obtain ⟨g, q', hself', hg, hd'⟩ := hk.waited q d hd
        -- `waited_` of the one that goes on was set to null
        have hgh : g ≠ h := by have := hk.self; have := hw.noObject; grind
        exact ⟨g, q', hself', by grind, hd'⟩ }

theorem Sound.complete (hk : Sound k) (hself : k.self p = none) (hg : k.status g = some (.awaiting p)) :
    Sound (k.resume g) := by
  unfold Pointers.resume Pointers.setWaited Pointers.setStatus
  exact {
    hk with
    self := by have := hk.self; grind
    active := by have := hk.active; grind
    awaiting := by have := hk.awaiting; grind
    handles := by have := hk.handles; grind
    waited := by have := hk.waited; grind }

/-! ## The end of an object -/

theorem Sound.dropObject (hk : Sound k) (hp : ∀ g, k.status g ≠ some (.awaiting p))
    (hself : k.self p = none) : Sound (k.freeObject p) := by
  unfold Pointers.freeObject
  exact {
    hk with
    self := by have := hk.self; grind
    wrapper := by have := hk.wrapper; grind
    active := by have := hk.active; grind
    awaiting := by have := hk.awaiting; grind
    handles := by have := hk.handles; grind
    waited := by have := hk.waited; grind }

theorem Sound.detach (hk : Sound k) (hp : ∀ g, k.status g ≠ some (.awaiting p))
    (hself : k.self p = some c) (hvoid : k.void p = some true) :
    Sound ((k.setFuture c none).freeObject p) := by
  unfold Pointers.freeObject Pointers.setFuture
  exact {
    hk with
    self := by have := hk.self; grind
    wrapper := by have := hk.wrapper; grind
    active := by have := hk.self; have := hk.active; grind
    awaiting := by have := hk.awaiting; grind
    handles := by have := hk.handles; grind
    waited := by have := hk.waited; grind }

theorem Sound.destroy (hk : Sound k) (hp : ∀ g, k.status g ≠ some (.awaiting p))
    (hself : k.self p = some c) (hw : k.wrapper p ≠ some true) :
    Sound ((k.freeFrame c).freeObject p) := by
  have hc := hk.not_active hp hself hw
  unfold Pointers.freeObject Pointers.freeFrame
  exact {
    hk with
    self := by have := hk.self; grind
    wrapper := by have := hk.wrapper; grind
    active := by have := hk.active; grind
    awaiting := by have := hk.awaiting; grind
    handles := by have := hk.self; have := hk.handles; grind
    waited := by have := hk.waited; grind }

/-! ## Every step -/

theorem Step.sound {k' : Pointers} {a : LifetimeAction} (hstep : Step k a k') (hw : WellFormed k)
    (hk : Sound k) : Sound k' := by
  cases hstep with
  | call void => exact hk.call hw (by simp)
  | make void => exact hk.allocObject hw void
  | move hp hvoid => exact hk.moveConstruct hw hp hvoid
  | assign hp hq hvoid => exact hk.transfer hw hp hq hvoid
  | spawnImpl hp hvoid =>
    exact (hk.moveConstruct hw hp hvoid).call (hw.moveConstruct hk hp _) fun _ => rfl
  | start hc => exact hk.start hc
  | awaitReady hg hp hself => exact ((hk.setWaiting hp hself _).setWaited _).setWaited _
  | awaitPending hg hp hself =>
    exact ((hk.setWaiting hp hself _).setWaited _).awaitPending hg ⟨hp.named, hp.unawaited⟩ hself
      (by simp [Pointers.setWaited, Pointers.setWaiting, hp.named])
  | awaitCreated hg hp hself hc => exact hk.awaitCreated hg hp hself hc
  | @awaitDone g p c ready hg hp hself hc =>
    cases k.waiting p with
    | none => exact hk
    | some h => exact hk.setWaited h
  | awaitGone hg hp hself hc => exact hk
  | finishTask hc hthrew hwaiting => exact hk.finishTask hw hc hwaiting
  | throwTask hc hfuture => exact hk.throwTask hc hfuture
  | finishAwaited hc hfuture hwaiting => exact hk.finishAwaited hw hc hfuture hwaiting
  | complete hself hwaiting hg => exact hk.complete hself hg
  | cancel p => exact hk
  | dropObject hp hself => exact hk.dropObject hp hself
  | detach hp hself hvoid hwaiting => exact hk.detach hp hself hvoid
  | @destroy p c hp hself hused =>
    refine hk.destroy hp hself fun hwrapper => ?_
    exact hused (hk.wrapper p hwrapper).1 (hk.wrapper p hwrapper).2

/-! ## Frames that are left behind -/

/-- What a step does not touch is held as before. -/
theorem Held.carry {k' : Pointers} (hc : k.Held c) (hself : ∀ p, k.self p = some c → k'.self p = some c)
    (hhandles : c ∈ k.handles → c ∈ k'.handles) (hstatus : k'.status c = k.status c) :
    k'.Held c := by
  rcases hc with ⟨p, hp⟩ | hmem | hactive
  · exact Or.inl ⟨p, hself p hp⟩
  · exact Or.inr (Or.inl (hhandles hmem))
  · refine Or.inr (Or.inr ?_)
    rw [Active, hstatus]
    exact hactive

theorem held_of_active {x : Status} (hc : k.status c = some x) (hx : x.active = true) : k.Held c := by
  refine Or.inr (Or.inr ?_)
  rw [Active, hc]
  exact hx

theorem NoneLeaked.allocObject (hn : NoneLeaked k) (hw : WellFormed k) (void : Bool) :
    NoneLeaked (k.allocObject ⟨void, false, none, none, none⟩) := by
  intro c hc
  have hfresh := hw.freshObject
  have hno := hw.noObject
  exact (hn c hc).carry (by grind [Pointers.allocObject]) id rfl

theorem NoneLeaked.call (hn : NoneLeaked k) (hw : WellFormed k) (void wrapper : Bool) :
    NoneLeaked (k.call void wrapper) := by
  intro c hc
  have hfresh := hw.freshObject
  have hno := hw.noObject
  unfold Pointers.call Pointers.allocObject Pointers.allocFrame at *
  by_cases hnew : c = k.nextFrame
  · exact Or.inl ⟨k.nextObject, by simp [hnew]⟩
  · have hlive : k.status c ≠ none := by simpa [hnew] using hc
    exact (hn c hlive).carry (by grind) (by grind) (by grind)

theorem NoneLeaked.transfer (hn : NoneLeaked k) (hq : k.self q = none) (p : ℕ) :
    NoneLeaked (k.transfer p q) := by
  intro c hc
  rcases hn c hc with ⟨r, hr⟩ | hheld
  · by_cases hrp : r = p
    · exact Or.inl ⟨q, by grind [Pointers.transfer]⟩
    · exact Or.inl ⟨r, by grind [Pointers.transfer]⟩
  · exact Or.inr hheld

theorem NoneLeaked.moveConstruct (hn : NoneLeaked k) (hw : WellFormed k) (p : ℕ) (void : Bool) :
    NoneLeaked (k.moveConstruct p void) :=
  (hn.allocObject hw void).transfer (by simp [Pointers.allocObject]) p

theorem NoneLeaked.setStatus (hn : NoneLeaked k) (hx : x.active = true) (c : ℕ) :
    NoneLeaked (k.setStatus c x) := by
  intro d hd
  unfold Pointers.setStatus at *
  by_cases hdc : d = c ∧ k.status d ≠ none
  · exact held_of_active (x := x) (if_pos hdc) hx
  · simp only [hdc, if_false] at hd
    exact (hn d hd).carry (fun _ => id) id (by simp [hdc])

theorem NoneLeaked.start (hn : NoneLeaked k) (hk : Sound k) (hc : c ∈ k.handles) :
    NoneLeaked { k.setStatus c .running with handles := k.handles.erase c } := by
  intro d hd
  have hlive := (hk.handles c hc).1
  unfold Pointers.setStatus at *
  by_cases hdc : d = c
  · exact held_of_active (x := .running) (by simp [hdc, hlive]) rfl
  · have hd' : k.status d ≠ none := by simpa [hdc] using hd
    exact (hn d hd').carry (fun _ => id) (fun h => (List.mem_erase_of_ne hdc).mpr h) (by simp [hdc])

theorem NoneLeaked.freeFrame (hn : NoneLeaked k) (c : ℕ) : NoneLeaked (k.freeFrame c) := by
  intro d hd
  unfold Pointers.freeFrame at *
  have hdc : d ≠ c := by
    rintro rfl
    simp at hd
  have hd' : k.status d ≠ none := by simpa [hdc] using hd
  exact (hn d hd').carry (fun _ => id) id (by simp [hdc])

theorem NoneLeaked.finishAwaited (hn : NoneLeaked k) (hk : Sound k) (hc : k.status c = some .running)
    (hfuture : k.future c = some p) : NoneLeaked ((k.setStatus c .done).resume h) := by
  have hself := ((hk.active c (by simp [Active, hc, Status.active])).2 p hfuture).1
  refine NoneLeaked.setStatus (k := (k.setStatus c .done).setWaited h none) ?_ rfl h
  intro d hd
  by_cases hdc : d = c
  · exact Or.inl ⟨p, hdc ▸ hself⟩
  · have hd' : k.status d ≠ none := by simpa [Pointers.setStatus, Pointers.setWaited, hdc] using hd
    exact (hn d hd').carry (fun _ => id) id (by simp [Pointers.setStatus, Pointers.setWaited, hdc])

/-- An object without a coroutine, or with one that is gone or held by somebody else. -/
theorem NoneLeaked.freeObject (hn : NoneLeaked k)
    (hp : ∀ c, k.self p = some c → k.status c ≠ none → c ∈ k.handles ∨ k.Active c) :
    NoneLeaked (k.freeObject p) := by
  intro c hc
  rcases hn c hc with ⟨r, hr⟩ | hheld
  · by_cases hrp : r = p
    · exact Or.inr (hp c (hrp ▸ hr) hc)
    · exact Or.inl ⟨r, by simp [Pointers.freeObject, hrp, hr]⟩
  · exact Or.inr hheld

/-- The coroutine of `future_wrapper` is in `handles_` until it starts. -/
theorem Sound.wrapper_held (hk : Sound k) (hw : k.wrapper p = some true) (hself : k.self p = some c)
    (hc : k.status c ≠ none) : c ∈ k.handles ∨ k.Active c := by
  rcases hk.self p c hself with ⟨-, -, hcreated, hdone⟩ | ⟨-, hnone, -⟩
  · obtain ⟨x, hx⟩ := Option.ne_none_iff_exists'.mp hc
    have hwaiting := (hk.wrapper p hw).2
    cases x with
    | created => exact Or.inl ((hcreated hx).2 hw)
    | running => exact Or.inr (by simp [Active, hx, Status.active])
    | awaiting q => exact Or.inr (by simp [Active, hx, Status.active])
    | done => exact absurd hwaiting (hdone hx)
  · exact absurd hnone hc

theorem Step.noneLeaked {k' : Pointers} {a : LifetimeAction} (hstep : Step k a k') (hw : WellFormed k)
    (hk : Sound k) (hn : NoneLeaked k) (hkeep : k.Keeps a) : NoneLeaked k' := by
  cases hstep with
  | call void => exact hn.call hw void false
  | make void => exact hn.allocObject hw void
  | move hp hvoid => exact hn.moveConstruct hw _ _
  | assign hp hq hvoid => exact hn.transfer hkeep _
  | spawnImpl hp hvoid =>
    exact (hn.moveConstruct hw _ _).call (hw.moveConstruct hk hp _) true true
  | start hc => exact hn.start hk hc
  | awaitReady hg hp hself => exact hn
  | awaitPending hg hp hself =>
    exact NoneLeaked.setStatus (k := (k.setWaiting _ _).setWaited _ _) hn rfl _
  | awaitCreated hg hp hself hc =>
    refine NoneLeaked.setStatus ?_ rfl _
    exact NoneLeaked.setStatus (k := (k.setWaiting _ _).setWaited _ _) hn rfl _
  | @awaitDone g p c ready hg hp hself hc => cases k.waiting p <;> exact hn
  | awaitGone hg hp hself hc => exact hn
  | finishTask hc hthrew hwaiting => exact hn.freeFrame _
  | throwTask hc hfuture => exact absurd hfuture (hkeep rfl)
  | finishAwaited hc hfuture hwaiting => exact hn.finishAwaited hk hc hfuture
  | @complete p g hself hwaiting hg => exact NoneLeaked.setStatus (k := k.setWaited g none) hn rfl g
  | cancel p => exact hn
  | dropObject hp hself => exact hn.freeObject (by simp [hself])
  | @detach p c hp hself hvoid hwaiting =>
    -- only `future_wrapper` may give up its coroutine
    have hwrapper : k.wrapper p = some true := by
      by_contra hwrapper
      have := hkeep hwrapper hvoid hwaiting
      rw [hself] at this
      cases this
    exact NoneLeaked.freeObject (k := k.setFuture c none) hn fun d => hk.wrapper_held hwrapper
  | @destroy p c hp hself hused =>
    refine (hn.freeFrame c).freeObject fun d hd hlive => ?_
    have hdc : d = c := Option.some.inj (hd.symm.trans hself)
    simp [Pointers.freeFrame, hdc] at hlive

/-- The coroutine of an object that can be named, and is not being awaited, is held by it alone. -/
theorem Sound.only_holder (hk : Sound k) (hw : WellFormed k)
    (hp : ∀ g, k.status g ≠ some (.awaiting p)) (hself : k.self p = some c)
    (hnamed : k.wrapper p ≠ some true) :
    k.status c ≠ none ∧ c ∉ k.handles ∧ ¬ k.Active c ∧ ∀ r, k.self r = some c → r = p := by
  have hfuture : k.future c = some p := by
    rcases hk.self p c hself with ⟨hfuture, -⟩ | ⟨hw', -⟩
    · exact hfuture
    · exact absurd hw' hnamed
  have hlive : k.status c ≠ none := by
    intro hnone
    rw [hw.noFrame c hnone] at hfuture
    cases hfuture
  refine ⟨hlive, fun hmem => ?_, hk.not_active hp hself hnamed, fun r hr => ?_⟩
  · exact hnamed ((hk.handles c hmem).2.2 p hfuture).2
  · rcases hk.self r c hr with ⟨hfuture', -⟩ | ⟨-, hnone, -⟩
    · exact Option.some.inj (hfuture'.symm.trans hfuture)
    · exact absurd hnone hlive

/-- A frame that nothing holds. -/
theorem not_noneLeaked (hc : k.status c ≠ none) (hself : ∀ p, k.self p ≠ some c)
    (hhandles : c ∉ k.handles) (hactive : ¬ k.Active c) : ¬ NoneLeaked k := by
  intro hn
  rcases hn c hc with ⟨p, hp⟩ | hmem | hactive'
  · exact hself p hp
  · exact hhandles hmem
  · exact hactive hactive'

theorem Step.leaked {k' : Pointers} {a : LifetimeAction} (hstep : Step k a k') (hw : WellFormed k)
    (hk : Sound k) (hkeep : ¬ k.Keeps a) : ¬ NoneLeaked k' := by
  cases hstep with
  | @assign p q hp hq hvoid =>
    -- nothing points at the coroutine that `q` had
    obtain ⟨c, hself⟩ := Option.ne_none_iff_exists'.mp hkeep
    obtain ⟨hlive, hhandles, hactive, honly⟩ :=
      hk.only_holder hw hq.unawaited hself (by simp [hq.named])
    refine not_noneLeaked (c := c) hlive (fun r hr => ?_) hhandles hactive
    grind [Pointers.transfer]
  | finishTask hc hthrew hwaiting => exact absurd (fun hthrow hnone => by simp_all) hkeep
  | @throwTask c hc hfuture =>
    refine not_noneLeaked (c := c) (by simp [Pointers.setStatus, hc]) (fun p hp => ?_) (fun hmem => ?_)
      (by simp [Pointers.setStatus, Active, hc, Status.active])
    · rcases hk.self p c hp with ⟨hfuture', -⟩ | ⟨-, hnone, -⟩
      · rw [hfuture] at hfuture'
        cases hfuture'
      · rw [hc] at hnone
        cases hnone
    · have := (hk.handles c hmem).1
      rw [hc] at this
      cases this
  | finishAwaited hc hfuture hwaiting => exact absurd (fun _ => by simp [hfuture]) hkeep
  | dropObject hp hself => exact absurd (fun _ _ _ => hself) hkeep
  | @detach p c hp hself hvoid hwaiting =>
    have hnamed : k.wrapper p ≠ some true := by
      intro hwrapper
      exact hkeep fun hnamed => absurd hwrapper hnamed
    obtain ⟨hlive, hhandles, hactive, honly⟩ := hk.only_holder hw hp hself hnamed
    refine not_noneLeaked (c := c) hlive (fun r hr => ?_) hhandles hactive
    simp only [Pointers.freeObject, Pointers.setFuture] at hr
    grind
  | destroy hp hself hused => exact absurd (fun _ hvoid hwaiting => absurd hwaiting (hused hvoid)) hkeep
  | _ => exact absurd trivial hkeep

end Xyco.Runtime.Pointers
