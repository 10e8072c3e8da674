import Xyco.Machine.Run
import Xyco.Runtime.Proofs.PointersProofs

/-!
# Proofs: what a step does to frames and futures

A step changes the pointers as `Pointers.Step` says, whether or not it follows a pointer that dangles.
-/

namespace Xyco.Runtime.Lifetimes

open Machine

variable {s t : Lifetimes} {p q c d g h : ℕ} {f : FutureObject} {frame : CoroutineFrame}
  {a : LifetimeAction}

/-! ## What an operation does to the pointers -/

theorem wellFormed_pointers (s : Lifetimes) : s.pointers.WellFormed := by
  refine ⟨fun p hp => ?_, fun c hc => ?_, fun p hp => ?_, fun c hc => ?_⟩
  · simp [pointers, Heap.view, Heap.read_of_view_none hp]
  · simp [pointers, Heap.view, Heap.read_of_view_none hc]
  · simp [pointers, Heap.view, Heap.read_of_next_le hp]
  · simp [pointers, Heap.view, Heap.read_of_next_le hc]

theorem pointers_status : s.pointers.status c = s.status c := by
  cases hc : s.frames.read c <;> simp [pointers, status, Heap.view, hc]

theorem pointers_of_read (hp : s.futures.read p = some f) :
    s.pointers.wrapper p = some f.wrapper ∧ s.pointers.void p = some f.void ∧
      s.pointers.self p = f.self ∧ s.pointers.waiting p = f.waiting ∧
      s.pointers.waited p = f.waited := by
  simp [pointers, Heap.view, hp]

theorem unawaited_pointers (hun : s.unawaited p = true) (g : ℕ) :
    s.pointers.status g ≠ some (.awaiting p) := by
  rw [pointers_status]
  intro hg
  obtain ⟨frame, hframe, hst⟩ := Option.map_eq_some_iff.mp hg
  simpa [hst] using Heap.all_iff.mp hun g frame hframe

theorem free_of_unawaited (hp : s.futures.read p = some f) (hw : f.wrapper = false)
    (hun : s.unawaited p = true) : s.pointers.Free p :=
  ⟨by rw [(pointers_of_read hp).1, hw], unawaited_pointers hun⟩

@[simp] theorem pointers_check (s : Lifetimes) (ok : Bool) : (s.check ok).pointers = s.pointers := rfl

theorem pointers_setStatus (s : Lifetimes) (c : ℕ) (x : Status) :
    (s.setStatus c x).pointers = s.pointers.setStatus c x := by
  refine Pointers.ext rfl rfl rfl rfl rfl ?_ ?_ ?_ rfl rfl (Heap.next_update _ _ _)
  · exact Heap.view_update_const (w := CoroutineFrame.status) (by intro _; rfl) _ _
  · exact Heap.view_update_same (by intro _; rfl) _ _
  · exact Heap.view_update_same (by intro _; rfl) _ _

theorem pointers_setRunning (s : Lifetimes) (c : ℕ) (nested : Bool) :
    (s.setRunning c nested).pointers = s.pointers.setStatus c .running := by
  refine Pointers.ext rfl rfl rfl rfl rfl ?_ ?_ ?_ rfl rfl (Heap.next_update _ _ _)
  · exact Heap.view_update_const (w := CoroutineFrame.status) (by intro _; rfl) _ _
  · exact Heap.view_update_same (by intro _; rfl) _ _
  · exact Heap.view_update_same (by intro _; rfl) _ _

theorem pointers_bindPromise (s : Lifetimes) (c : ℕ) (future : Option ℕ) :
    (s.bindPromise (some c) future).pointers = s.pointers.setFuture c future := by
  refine Pointers.ext rfl rfl rfl rfl rfl ?_ ?_ ?_ rfl rfl (Heap.next_update _ _ _)
  · exact Heap.view_update_same (by intro _; rfl) _ _
  · exact Heap.view_update_const (w := CoroutineFrame.status) (by intro _; rfl) _ _
  · exact Heap.view_update_same (by intro _; rfl) _ _

theorem pointers_freeFrame (s : Lifetimes) (c : ℕ) :
    (s.freeFrame c).pointers = s.pointers.freeFrame c := by
  refine Pointers.ext rfl rfl rfl rfl rfl ?_ ?_ ?_ rfl rfl (Heap.next_free _ _) <;> funext d <;>
    exact Heap.view_free _ _ _ _

theorem pointers_freeObject (s : Lifetimes) (p : ℕ) :
    { s with futures := s.futures.free p }.pointers = s.pointers.freeObject p := by
  refine Pointers.ext ?_ ?_ ?_ ?_ ?_ rfl rfl rfl rfl (Heap.next_free _ _) rfl <;> funext q <;>
    exact Heap.view_free _ _ _ _

theorem pointers_make (s : Lifetimes) (void : Bool) :
    (s.make void).pointers = s.pointers.allocObject ⟨void, false, none, none, none⟩ := by
  refine Pointers.ext ?_ ?_ ?_ ?_ ?_ rfl rfl rfl rfl (Heap.next_alloc _ _) rfl <;> funext q <;>
    exact Heap.view_alloc _ _ _ _

theorem pointers_call (s : Lifetimes) (void : Bool) :
    (s.call void false).pointers = s.pointers.call void false := by
  refine Pointers.ext ?_ ?_ ?_ ?_ ?_ ?_ ?_ ?_ rfl (Heap.next_alloc _ _) (Heap.next_alloc _ _) <;>
    funext q <;> exact Heap.view_alloc _ _ _ _

theorem pointers_spawn (s : Lifetimes) :
    { s.call true true with handles := s.frames.next :: s.handles }.pointers =
      s.pointers.call true true := by
  refine Pointers.ext ?_ ?_ ?_ ?_ ?_ ?_ ?_ ?_ rfl (Heap.next_alloc _ _) (Heap.next_alloc _ _) <;>
    funext q <;> exact Heap.view_alloc _ _ _ _

theorem pointers_setWaiting (s : Lifetimes) (p g : ℕ) :
    { s with futures := s.futures.update p fun f => { f with waiting := some g } }.pointers =
      s.pointers.setWaiting p g := by
  refine Pointers.ext ?_ ?_ ?_ ?_ ?_ rfl rfl rfl rfl (Heap.next_update _ _ _) rfl
  · exact Heap.view_update_same (by intro _; rfl) _ _
  · exact Heap.view_update_same (by intro _; rfl) _ _
  · exact Heap.view_update_same (by intro _; rfl) _ _
  · exact Heap.view_update_const (w := FutureObject.wrapper) (by intro _; rfl) _ _
  · exact Heap.view_update_same (by intro _; rfl) _ _

theorem pointers_setWaited (s : Lifetimes) (c : ℕ) (w : Option ℕ) :
    (s.setWaited c w).pointers = s.pointers.setWaited c w := by
  unfold setWaited Pointers.setWaited
  split
  · rename_i hnone
    have hfuture : s.pointers.future c = none := hnone
    simp [hfuture]
  · rename_i p hp
    have hfuture : s.pointers.future c = some p := hp
    refine Pointers.ext ?_ ?_ ?_ ?_ ?_ rfl rfl rfl rfl (Heap.next_update _ _ _) rfl
    · exact Heap.view_update_same (by intro _; rfl) _ _
    · exact Heap.view_update_same (by intro _; rfl) _ _
    · exact Heap.view_update_same (by intro _; rfl) _ _
    · exact Heap.view_update_same (by intro _; rfl) _ _
    · refine (Heap.view_update_const (w := FutureObject.wrapper) (by intro _; rfl) _ _).trans ?_
      funext q
      simp only [hfuture, Option.some.injEq, eq_comm (a := p)]
      rfl

/-- A field of the objects after `operator=`. -/
theorem view_moveAssign {v : FutureObject → Option ℕ} {w : Option ℕ} {fq : FutureObject}
    (hq : s.futures.read q = some fq) (hv : ∀ g : FutureObject, v
      { g with self := f.self, waiting := f.waiting, waited := f.waited } = w)
    (hmoved : ∀ g : FutureObject, v g.moved = none) (r : ℕ) :
    (s.moveAssign p q f).futures.view v r =
      if r = p then none else if r = q then w else s.futures.view v r := by
  simp only [moveAssign, Heap.view_update, hmoved, hv]
  by_cases hrp : r = p
  · simp [hrp]
  · by_cases hrq : r = q
    · simp [hrq, Heap.view_const hq]
    · simp [hrp, hrq]

theorem pointers_moveAssign {fq : FutureObject} (hp : s.futures.read p = some f)
    (hq : s.futures.read q = some fq) : (s.moveAssign p q f).pointers = s.pointers.transfer p q := by
  obtain ⟨-, -, hself, hwaiting, hwaited⟩ := pointers_of_read hp
  -- the frames first: there is one whose `future_` changes, or none
  have hframes : (s.bindPromise (if p = q then none else f.self) (some q)).pointers =
      { s.pointers with future := (s.pointers.transfer p q).future } := by
    simp only [Pointers.transfer, hself]
    by_cases hpq : p = q
    · simp [hpq, bindPromise]
    · cases hc : f.self with
      | none => simp [bindPromise]
      | some c =>
        simp only [hpq, if_false, pointers_bindPromise, Pointers.setFuture, ne_eq, not_false_eq_true,
          true_and, Option.some.injEq, eq_comm (a := c)]
  have hstatus := congrArg Pointers.status hframes
  have hfuture := congrArg Pointers.future hframes
  have hvoid := congrArg Pointers.frameVoid hframes
  have hhandles := congrArg Pointers.handles hframes
  have hnext := congrArg Pointers.nextFrame hframes
  refine Pointers.ext ?_ ?_ ?_ ?_ ?_ hstatus hfuture hvoid hhandles ?_ hnext
  · exact (Heap.view_update_same (by intro _; rfl) _ _).trans
      (Heap.view_update_same (by intro _; rfl) _ _)
  · exact (Heap.view_update_same (by intro _; rfl) _ _).trans
      (Heap.view_update_same (by intro _; rfl) _ _)
  · funext r
    simp only [Pointers.transfer, hself]
    exact view_moveAssign hq (by intro _; rfl) (by intro _; rfl) r
  · funext r
    simp only [Pointers.transfer, hwaiting]
    exact view_moveAssign hq (by intro _; rfl) (by intro _; rfl) r
  · funext r
    simp only [Pointers.transfer, hwaited]
    exact view_moveAssign hq (by intro _; rfl) (by intro _; rfl) r
  · exact (Heap.next_update _ _ _).trans (Heap.next_update _ _ _)

theorem pointers_moveConstruct (hp : s.futures.read p = some f) :
    (s.moveConstruct p f).pointers = s.pointers.moveConstruct p f.void := by
  have hne : p ≠ s.futures.next := Nat.ne_of_lt (Heap.lt_next hp)
  have hp' : (s.make f.void).futures.read p = some f := by simp [make, hne, hp]
  have hnew : (s.make f.void).futures.read s.futures.next =
      some ⟨f.void, false, none, none, none⟩ := by simp [make]
  unfold moveConstruct Pointers.moveConstruct
  rw [pointers_moveAssign hp' hnew, pointers_make]
  rfl

theorem pointers_resume (hf : f.waiting = some h) (s : Lifetimes) (p : ℕ) (nested : Bool) :
    (s.resume h p f nested).pointers = s.pointers.resume h := by
  simp only [resume, awaitResume, hf, pointers_setRunning, pointers_setWaited, pointers_check,
    Pointers.resume]

/-! ## What a step can do -/

theorem move_cases (hstep : s.move p = some t) :
    ∃ f, s.futures.read p = some f ∧ f.wrapper = false ∧ t = s.moveConstruct p f := by
  unfold move at hstep
  split at hstep
  · cases hstep
  · rename_i f hp
    obtain ⟨hw, rfl⟩ := eq_of_guard hstep
    exact ⟨f, hp, hw, rfl⟩

theorem assign_cases (hstep : s.assign p q = some t) :
    ∃ f fq, s.futures.read p = some f ∧ s.futures.read q = some fq ∧ f.wrapper = false ∧
      fq.wrapper = false ∧ f.void = fq.void ∧ t = s.moveAssign p q f := by
  unfold assign at hstep
  split at hstep
  · rename_i f fq hp hq
    obtain ⟨⟨hw, hw', hvoid⟩, rfl⟩ := eq_of_guard hstep
    exact ⟨f, fq, hp, hq, hw, hw', hvoid, rfl⟩
  · cases hstep

theorem spawnImpl_cases (hstep : s.spawnImpl p = some t) :
    ∃ f, s.futures.read p = some f ∧ f.wrapper = false ∧
      t = { (s.moveConstruct p f).call true true with handles := s.frames.next :: s.handles } := by
  unfold spawnImpl at hstep
  split at hstep
  · cases hstep
  · rename_i f hp
    obtain ⟨hw, rfl⟩ := eq_of_guard hstep
    exact ⟨f, hp, hw, rfl⟩

theorem await_cases {ready : Bool} (hstep : s.await g p ready = some t) :
    ∃ f, s.futures.read p = some f ∧ s.status g = some .running ∧ f.wrapper = false ∧
      ((f.self = none ∧ ready = true ∧ t = (s.suspend g p none).setWaited g none) ∨
       (f.self = none ∧ ready = false ∧ t = (s.suspend g p none).setStatus g (.awaiting p)) ∨
       ∃ c, f.self = some c ∧
        ((s.status c = none ∧ t = s.check false) ∨
         (s.status c = some .created ∧
          t = ((s.suspend g p (some c)).setStatus g (.awaiting p)).setRunning c true) ∨
         (s.status c = some .done ∧ t = s.awaitResume f) ∨
         ∃ x, s.status c = some x ∧ x.active = true ∧ t = (s.suspend g p (some c)).check false)) := by
  unfold await at hstep
  split at hstep
  · cases hstep
  · rename_i f hp
    split at hstep
    · rename_i hfree
      refine ⟨f, hp, hfree.1, hfree.2, ?_⟩
      split at hstep
      · rename_i hself
        rcases eq_of_branch hstep with ⟨rfl, rfl⟩ | ⟨hready, rfl⟩
        · exact Or.inl ⟨hself, rfl, rfl⟩
        · exact Or.inr (Or.inl ⟨hself, by simpa using hready, rfl⟩)
      · rename_i c hself
        refine Or.inr (Or.inr ⟨c, hself, ?_⟩)
        split at hstep
        · rename_i hc
          exact Or.inl ⟨hc, (Option.some.inj hstep).symm⟩
        · rename_i hc
          exact Or.inr (Or.inl ⟨hc, (Option.some.inj hstep).symm⟩)
        · rename_i hc
          exact Or.inr (Or.inr (Or.inl ⟨hc, (Option.some.inj hstep).symm⟩))
        · rename_i x hcreated hdone hc
          refine Or.inr (Or.inr (Or.inr ⟨x, hc, ?_, (Option.some.inj hstep).symm⟩))
          cases x with
          | created => exact absurd rfl hcreated
          | done => exact absurd rfl hdone
          | running | awaiting _ => rfl
    · cases hstep

theorem finish_cases {threw : Bool} (hstep : s.finish c threw = some t) :
    ∃ frame, s.frames.read c = some frame ∧ frame.status = .running ∧
      ((frame.future = none ∧ threw = true ∧
          t = (s.check (frame.void && !frame.nested)).setStatus c .done) ∨
       (frame.future = none ∧ threw = false ∧ t = (s.check frame.void).freeFrame c) ∨
       ∃ p, frame.future = some p ∧
        ((s.futures.read p = none ∧ t = (s.check false).freeFrame c) ∨
         ∃ f, s.futures.read p = some f ∧
          ((f.waiting = none ∧ t = s.freeFrame c) ∨
           ∃ h, f.waiting = some h ∧ t = (s.setStatus c .done).resume h p f frame.nested))) := by
  unfold finish at hstep
  split at hstep
  · rename_i void future nested hc
    refine ⟨_, hc, rfl, ?_⟩
    split at hstep
    · rcases eq_of_branch hstep with ⟨rfl, rfl⟩ | ⟨hthrew, rfl⟩
      · exact Or.inl ⟨rfl, rfl, rfl⟩
      · exact Or.inr (Or.inl ⟨rfl, by simpa using hthrew, rfl⟩)
    · rename_i p
      refine Or.inr (Or.inr ⟨p, rfl, ?_⟩)
      split at hstep
      · rename_i hp
        exact Or.inl ⟨hp, (Option.some.inj hstep).symm⟩
      · rename_i f hp
        refine Or.inr ⟨f, hp, ?_⟩
        split at hstep
        · rename_i hwaiting
          exact Or.inl ⟨hwaiting, (Option.some.inj hstep).symm⟩
        · rename_i h hwaiting
          exact Or.inr ⟨h, hwaiting, (Option.some.inj hstep).symm⟩
  · cases hstep

theorem complete_cases (hstep : s.complete p = some t) :
    ∃ f g, s.futures.read p = some f ∧ f.self = none ∧ f.waiting = some g ∧
      s.status g = some (.awaiting p) ∧ t = s.resume g p f false := by
  unfold complete at hstep
  split at hstep
  · cases hstep
  · rename_i f hp
    split at hstep
    · rename_i g hself hwaiting
      obtain ⟨hg, rfl⟩ := eq_of_guard hstep
      exact ⟨f, g, hp, hself, hwaiting, hg, rfl⟩
    · cases hstep

theorem cancel_cases (hstep : s.cancel p = some t) :
    s.futures.read p ≠ none ∧ t = s.check (s.cancelUsable s.futures.next p) := by
  unfold cancel at hstep
  split at hstep
  · cases hstep
  · rename_i f hp
    exact ⟨by simp [hp], (Option.some.inj hstep).symm⟩

theorem drop_cases (hstep : s.drop p = some t) :
    ∃ f, s.futures.read p = some f ∧ t = { s.release f with futures := s.futures.free p } ∧
      ((f.self = none ∧ s.release f = s) ∨
       ∃ c, f.self = some c ∧
        ((f.void = true ∧ f.waiting = none ∧ s.release f = s.bindPromise (some c) none) ∨
         ((f.void = true → f.waiting ≠ none) ∧ s.release f = s.destroy c))) := by
  unfold drop at hstep
  split at hstep
  · cases hstep
  · rename_i f hp
    refine ⟨f, hp, (Option.some.inj hstep).symm, ?_⟩
    unfold release
    cases hself : f.self with
    | none => exact Or.inl ⟨rfl, rfl⟩
    | some c =>
      refine Or.inr ⟨c, rfl, ?_⟩
      by_cases hused : (f.void && f.waiting.isNone) = true
      · simp only [Bool.and_eq_true, Option.isNone_iff_eq_none] at hused
        exact Or.inl ⟨hused.1, hused.2, by simp [hused]⟩
      · refine Or.inr ⟨fun hvoid hwaiting => hused (by simp [hvoid, hwaiting]), if_neg hused⟩

theorem pointers_suspend (s : Lifetimes) (g p : ℕ) (self : Option ℕ) :
    (s.suspend g p self).pointers = (s.pointers.setWaiting p g).setWaited g self := by
  rw [suspend, pointers_setWaited, pointers_setWaiting]

theorem await_pointers {ready : Bool} (hs : s.pointers.Sound) (hfree : s.unawaited p = true)
    (hstep : s.await g p ready = some t) :
    Pointers.Step s.pointers (.await g p ready) t.pointers := by
  obtain ⟨f, hp, hg, hw, hcases⟩ := await_cases hstep
  rw [← pointers_status] at hg
  have hself := (pointers_of_read hp).2.2.1
  have hp' := free_of_unawaited hp hw hfree
  rcases hcases with ⟨hnone, rfl, rfl⟩ | ⟨hnone, rfl, rfl⟩ | ⟨c, hc, hcases⟩
  · rw [pointers_setWaited, pointers_suspend]
    exact .awaitReady hg hp' (hself.trans hnone)
  · rw [pointers_setStatus, pointers_suspend]
    exact .awaitPending hg hp' (hself.trans hnone)
  · rcases hcases with ⟨hst, rfl⟩ | ⟨hst, rfl⟩ | ⟨hst, rfl⟩ | ⟨x, hst, hx, -⟩
    all_goals rw [← pointers_status] at hst
    · exact .awaitGone hg hp' (hself.trans hc) hst
    · rw [pointers_setRunning, pointers_setStatus, pointers_suspend]
      exact .awaitCreated hg hp' (hself.trans hc) hst
    · have hdone := Pointers.Step.awaitDone (r := ready) hg hp' (hself.trans hc) hst
      rw [(pointers_of_read hp).2.2.2.1] at hdone
      unfold awaitResume
      cases hwaiting : f.waiting with
      | none => simpa [hwaiting] using hdone
      | some h => simpa [hwaiting, pointers_setWaited] using hdone
    · -- a coroutine that has started and not finished is awaited
      exact absurd (by rw [Pointers.Active, hst]; exact hx) (hp'.not_active hs (hself.trans hc))

theorem finish_pointers {threw : Bool} (hstep : s.finish c threw = some t) :
    Pointers.Step s.pointers (.finish c threw) t.pointers := by
  obtain ⟨frame, hc, hrunning, hcases⟩ := finish_cases hstep
  have hst : s.pointers.status c = some .running := by simp [pointers, Heap.view, hc, hrunning]
  have hfuture : s.pointers.future c = frame.future := by simp [pointers, Heap.view, hc]
  rcases hcases with ⟨hnone, rfl, rfl⟩ | ⟨hnone, rfl, rfl⟩ | ⟨p, hp, hcases⟩
  · rw [pointers_setStatus]
    exact .throwTask hst (hfuture.trans hnone)
  · rw [pointers_freeFrame]
    exact .finishTask hst (fun _ => rfl) (by simp [hfuture, hnone])
  · rw [hp] at hfuture
    have hone : ∀ q, s.pointers.future c = some q → q = p := by
      intro q hq
      exact Option.some.inj (hq.symm.trans hfuture)
    rcases hcases with ⟨hgone, rfl⟩ | ⟨f, hf, ⟨hwaiting, rfl⟩ | ⟨h, hwaiting, rfl⟩⟩
    · rw [pointers_freeFrame]
      refine .finishTask hst (by simp [hfuture]) fun q hq => ?_
      simp [hone q hq, pointers, Heap.view, hgone]
    · rw [pointers_freeFrame]
      refine .finishTask hst (by simp [hfuture]) fun q hq => ?_
      rw [hone q hq, (pointers_of_read hf).2.2.2.1, hwaiting]
    · rw [pointers_resume hwaiting, pointers_setStatus]
      exact .finishAwaited hst hfuture ((pointers_of_read hf).2.2.2.1.trans hwaiting)

theorem drop_pointers (hfree : s.unawaited p = true) (hstep : s.drop p = some t) :
    Pointers.Step s.pointers (.drop p) t.pointers := by
  obtain ⟨f, hp, rfl, hcases⟩ := drop_cases hstep
  obtain ⟨-, hvoid, hself, hwaiting, -⟩ := pointers_of_read hp
  have hun := unawaited_pointers (p := p) hfree
  rcases hcases with ⟨hnone, hrelease⟩ | ⟨c, hc, ⟨htrue, hnone, hrelease⟩ | ⟨hused, hrelease⟩⟩
  · rw [hrelease, pointers_freeObject]
    exact .dropObject hun (hself.trans hnone)
  · rw [hrelease]
    have := pointers_freeObject (s.bindPromise (some c) none) p
    rw [pointers_bindPromise] at this
    refine this ▸ .detach hun (hself.trans hc) (by rw [hvoid, htrue]) (hwaiting.trans hnone)
  · rw [hrelease]
    have := pointers_freeObject (s.destroy c) p
    rw [destroy, pointers_freeFrame] at this
    refine this ▸ .destroy hun (hself.trans hc) fun htrue => ?_
    rw [hvoid] at htrue
    rw [hwaiting]
    exact hused (Option.some.inj htrue)

/-- A step changes the pointers as the abstract one does. -/
theorem step_pointers (hs : s.pointers.Sound) (hfree : s.leavesAwaited a = true)
    (hstep : s.step a = some t) : Pointers.Step s.pointers a t.pointers := by
  cases a with
  | call void =>
    obtain rfl := Option.some.inj hstep
    rw [pointers_call]
    exact .call void
  | make void =>
    obtain rfl := Option.some.inj hstep
    rw [pointers_make]
    exact .make void
  | move p =>
    obtain ⟨f, hp, hw, rfl⟩ := move_cases hstep
    rw [pointers_moveConstruct hp]
    exact .move (free_of_unawaited hp hw hfree) (pointers_of_read hp).2.1
  | assign p q =>
    obtain ⟨f, fq, hp, hq, hw, hw', hvoid, rfl⟩ := assign_cases hstep
    obtain ⟨hfree, hfree'⟩ := (Bool.and_eq_true _ _).mp hfree
    rw [pointers_moveAssign hp hq]
    refine .assign (free_of_unawaited hp hw hfree) (free_of_unawaited hq hw' hfree') ?_
    rw [(pointers_of_read hp).2.1, (pointers_of_read hq).2.1, hvoid]
  | spawnImpl p =>
    obtain ⟨f, hp, hw, rfl⟩ := spawnImpl_cases hstep
    have hmove := pointers_moveConstruct hp
    have hhandles : (s.moveConstruct p f).handles = s.handles := congrArg Pointers.handles hmove
    have hnext : (s.moveConstruct p f).frames.next = s.frames.next :=
      congrArg Pointers.nextFrame hmove
    rw [← hhandles, ← hnext, pointers_spawn, hmove]
    exact .spawnImpl (free_of_unawaited hp hw hfree) (pointers_of_read hp).2.1
  | start c =>
    obtain ⟨hc, rfl⟩ := eq_of_guard hstep
    rw [pointers_setRunning]
    exact .start hc
  | await g p ready => exact await_pointers hs hfree hstep
  | finish c threw => exact finish_pointers hstep
  | complete p =>
    obtain ⟨f, g, hp, hself, hwaiting, hg, rfl⟩ := complete_cases hstep
    rw [← pointers_status] at hg
    rw [pointers_resume hwaiting]
    exact .complete ((pointers_of_read hp).2.2.1.trans hself)
      ((pointers_of_read hp).2.2.2.1.trans hwaiting) hg
  | cancel p =>
    obtain ⟨-, rfl⟩ := cancel_cases hstep
    exact .cancel p
  | drop p => exact drop_pointers hfree hstep

theorem sound_init : init.pointers.Sound := by
  constructor <;> simp [init, pointers, Pointers.Active]

theorem step_sound (hs : s.pointers.Sound) (hfree : s.leavesAwaited a = true)
    (hstep : s.step a = some t) : t.pointers.Sound :=
  (step_pointers hs hfree hstep).sound s.wellFormed_pointers hs

end Xyco.Runtime.Lifetimes
